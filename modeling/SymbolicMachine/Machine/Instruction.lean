import SymbolicMachine.Machine.Basic
import SymbolicMachine.Text.Hexadecimal

namespace SymbolicMachine

/-!
# Instructions

An instruction changes the machine and says how control goes on.  Both branches
test whether a flag is clear; whether the branch is taken may be undecided, so
control flow carries the condition as a bit.
-/

/-- One instruction of a program. -/
inductive Instruction where
  /-- Set a register to a given word. -/
  | load (register : Register) (value : UInt8)
  /-- Clear the carry flag. -/
  | clearCarry
  /-- Rotate a word in memory to the right through the carry flag. -/
  | rotateMemory (address : Word)
  /-- Rotate a register to the right through the carry flag. -/
  | rotateRegister (register : Register)
  /-- Add a word in memory and the carry flag to the accumulator. -/
  | addWithCarry (address : Word)
  /-- Subtract one from a register. -/
  | decrement (register : Register)
  /-- Go on at the target if a flag is clear. -/
  | branchIfClear (flag : Flag) (target : Nat)
  /-- End the run. -/
  | halt
  deriving DecidableEq, Repr

/-- How control goes on after an instruction. -/
inductive Flow where
  /-- With the instruction that follows. -/
  | next
  /-- At the destination if the condition holds, else with the instruction that
  follows. -/
  | branch (condition : Bit) (destination : Nat)
  /-- Not at all. -/
  | halt
  deriving DecidableEq, Repr

namespace Instruction

/-- The instruction to which a branch leads. -/
def target? : Instruction -> Option Nat
  | branchIfClear _ target => some target
  | _ => none

/-! ## Written form -/

/-- The short name of an instruction. -/
def mnemonic : Instruction -> String
  | load .x _ => "ldx"
  | load .a _ => "lda"
  | clearCarry => "clc"
  | rotateMemory _ | rotateRegister _ => "ror"
  | addWithCarry _ => "adc"
  | decrement .x => "dex"
  | decrement .a => "dea"
  | branchIfClear .carry _ => "bcc"
  | branchIfClear .zero _ => "bne"
  | halt => "hlt"

/-- An address as an operand, by its number if that is known. -/
def addressText (address : Word) : String :=
  match address.known with
  | some number => "[" ++ Text.hexadecimal 1 number ++ "]"
  | none => "[symbolic]"

/-- The operand of an instruction that has one. -/
def operandText? : Instruction -> Option String
  | load _ value => some ("#" ++ Text.hexadecimal 2 value.toNat)
  | rotateMemory address | addWithCarry address => some (addressText address)
  | rotateRegister register => some register.name
  | branchIfClear _ target => some (toString target)
  | clearCarry | decrement _ | halt => none

/-- An instruction as it is listed. -/
def text (instruction : Instruction) : String :=
  match instruction.operandText? with
  | some operand => instruction.mnemonic ++ " " ++ operand
  | none => instruction.mnemonic

/-! ## Execution -/

/-- Whether all bits of a word are zero. -/
def isZero (word : Word) : Checked Bit :=
  word.equals (.zero word.width)

/-- What an instruction does to the machine and how control goes on. -/
def execute (instruction : Instruction) (machine : Machine) : Checked (Machine × Flow) :=
  match instruction with
  | load register value => do
      let machine ← machine.withRegister register (.constant value.toNat wordBits)
      return (machine, .next)
  | clearCarry => return (machine.withFlag .carry .zero, .next)
  | rotateMemory address => do
      let value ← machine.read address
      let (rotated, carry) ← value.rotateRight machine.carry
      let machine ← machine.write address rotated
      return (machine.withFlag .carry carry, .next)
  | rotateRegister register => do
      let (rotated, carry) ← (machine.register register).rotateRight machine.carry
      let machine ← machine.withRegister register rotated
      return (machine.withFlag .carry carry, .next)
  | addWithCarry address => do
      let operand ← machine.read address
      let (sum, carry) ← machine.a.addWithCarry operand machine.carry
      let zero ← isZero sum
      let machine ← machine.withRegister .a sum
      return ((machine.withFlag .carry carry).withFlag .zero zero, .next)
  | decrement register => do
      let difference ← (machine.register register).sub (.constant 1 wordBits)
      let zero ← isZero difference
      let machine ← machine.withRegister register difference
      return (machine.withFlag .zero zero, .next)
  | branchIfClear flag target => do
      let condition ← (machine.flag flag).not
      return (machine, .branch condition target)
  | halt => return (machine, .halt)

end Instruction
end SymbolicMachine
