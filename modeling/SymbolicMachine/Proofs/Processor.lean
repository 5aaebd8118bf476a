import Mathlib.Logic.Function.Basic
import SymbolicMachine.Program.Basic

namespace SymbolicMachine

/-!
# The processor

A processor is the machine that a symbolic machine stands for: its registers and memory
hold numbers and its flags hold truth values.  It executes the same programs, one
instruction after the other, once the words that name addresses in a program have been
located in its memory.

A run of a processor is either complete or does not exist.  It is complete when a halt
has been executed, and then it is the only one from where it started.
-/

/-- The word that names an address in an instruction, if there is one. -/
def Instruction.address? : Instruction -> Option Word
  | .rotateMemory address | .addWithCarry address => some address
  | _ => none

/-- A machine of eight-bit words with two registers and two flags. -/
structure Processor where
  memory : UInt32 -> UInt8
  x : UInt8
  a : UInt8
  carry : Bool
  zero : Bool

/-- Where a run stands: about to execute an instruction, or past a halt. -/
inductive Control where
  | running (pc : Nat)
  | halted
  deriving DecidableEq, Repr

namespace Processor

def register (processor : Processor) : Register -> UInt8
  | .x => processor.x
  | .a => processor.a

def flag (processor : Processor) : Flag -> Bool
  | .carry => processor.carry
  | .zero => processor.zero

def withRegister (processor : Processor) (register : Register) (value : UInt8) : Processor :=
  match register with
  | .x => { processor with x := value }
  | .a => { processor with a := value }

def withFlag (processor : Processor) (flag : Flag) (value : Bool) : Processor :=
  match flag with
  | .carry => { processor with carry := value }
  | .zero => { processor with zero := value }

def write (processor : Processor) (place : UInt32) (value : UInt8) : Processor :=
  { processor with memory := Function.update processor.memory place value }

@[simp] theorem memory_write (processor : Processor) (place : UInt32) (value : UInt8) :
    (processor.write place value).memory = Function.update processor.memory place value :=
  rfl

/-- Processors are the same if all their parts are. -/
theorem eq_of_parts {first second : Processor}
    (registers : ∀ register, first.register register = second.register register)
    (flags : ∀ flag, first.flag flag = second.flag flag)
    (memories : ∀ place, first.memory place = second.memory place) : first = second := by
  rcases first with ⟨memory, x, a, carry, zero⟩
  rcases second with ⟨memory', x', a', carry', zero'⟩
  rw [Processor.mk.injEq]
  exact ⟨funext memories, registers .x, registers .a, flags .carry, flags .zero⟩

/-- A word moved down by one place, with a bit entering at the top. -/
def rotate (value : UInt8) (carry : Bool) : UInt8 :=
  value / 2 + if carry then 128 else 0

/-- The bit that a rotation pushes out. -/
def lowest (value : UInt8) : Bool :=
  value.toNat.testBit 0

/-- What an instruction does to a processor. -/
def act (locate : Word -> UInt32) (instruction : Instruction) (processor : Processor) :
    Processor :=
  match instruction with
  | .load register value => processor.withRegister register value
  | .clearCarry => processor.withFlag .carry false
  | .rotateMemory address =>
      let value := processor.memory (locate address)
      (processor.write (locate address) (rotate value processor.carry)).withFlag .carry
        (lowest value)
  | .rotateRegister register =>
      let value := processor.register register
      (processor.withRegister register (rotate value processor.carry)).withFlag .carry
        (lowest value)
  | .addWithCarry address =>
      let total := processor.a.toNat + (processor.memory (locate address)).toNat +
        processor.carry.toNat
      ((processor.withRegister .a (.ofNat total)).withFlag .carry (256 ≤ total)).withFlag .zero
        (UInt8.ofNat total == 0)
  | .decrement register =>
      let value := processor.register register - 1
      (processor.withRegister register value).withFlag .zero (value == 0)
  | .branchIfClear _ _ | .halt => processor

/-- Where a run goes on after an instruction. -/
def after (instruction : Instruction) (pc : Nat) (processor : Processor) : Control :=
  match instruction with
  | .branchIfClear flag target => .running (if processor.flag flag then pc + 1 else target)
  | .halt => .halted
  | _ => .running (pc + 1)

end Processor

/-- A complete run from a point of a program, with the numbers of the instructions that
it executes and the processor that it leaves. -/
inductive Runs (program : Program) (locate : Word -> UInt32) :
    Control -> Processor -> List Nat -> Processor -> Prop
  | halted (processor : Processor) : Runs program locate .halted processor [] processor
  | step {pc : Nat} {instruction : Instruction} {processor final : Processor}
      {visited : List Nat} :
      program.get? pc = some instruction ->
      Runs program locate (processor.after instruction pc) (processor.act locate instruction)
        visited final ->
      Runs program locate (.running pc) processor (pc :: visited) final

namespace Runs

variable {program : Program} {locate : Word -> UInt32} {processor final : Processor}
  {visited : List Nat}

theorem next {pc : Nat} {instruction : Instruction}
    (found : program.get? pc = some instruction)
    (runs : Runs program locate (.running pc) processor visited final) :
    ∃ rest, Runs program locate (processor.after instruction pc)
      (processor.act locate instruction) rest final := by
  cases runs with
  | step foundAgain rest =>
      rw [found] at foundAgain
      cases foundAgain
      exact ⟨_, rest⟩

theorem eq_of_halted (runs : Runs program locate .halted processor visited final) :
    final = processor := by
  cases runs
  rfl

end Runs
end SymbolicMachine
