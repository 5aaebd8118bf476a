import SymbolicMachine.Proofs.Frames
import SymbolicMachine.Proofs.WellFormedMachines

namespace SymbolicMachine

/-!
# What an instruction does

The effect of an instruction is given in numbers: what the registers, flags and places of
memory that it sets hold afterwards, in terms of what the processor held before.  A rotation is
a cyclic shift of the nine bits that a word makes up with the carry flag, and it is the same
one for words in memory and in registers.  Everything that an instruction does not set it leaves
alone, and in memory it sets one place at most.

A machine does under every assignment what the effect says.  Places are told apart by what
addresses evaluate to and not by how they are written, so a word read through another address
changes just if that address evaluates to the place that is set.
-/

/-! ## Effects -/

namespace Instruction

/-- An instruction sets a flag. -/
def setsFlag (flag : Flag) : Instruction -> Bool
  | clearCarry | rotateMemory _ | rotateRegister _ => Flag.carry == flag
  | addWithCarry _ => true
  | decrement _ => Flag.zero == flag
  | load _ _ | branchIfClear _ _ | halt => false

/-- The word that names the place of memory that an instruction sets. -/
def writes? : Instruction -> Option Word
  | rotateMemory address => some address
  | _ => none

end Instruction

namespace Processor

/-- The number of a word with a flag in front of it. -/
def nineBits (value : UInt8) (carry : Bool) : Nat :=
  value.toNat + 256 * carry.toNat

/-- Nine bits moved down by one place, with the lowest one entering at the top. -/
def cycled (number : Nat) : Nat :=
  number / 2 + 256 * (number % 2)

/-- What the parts of a processor that an instruction sets hold after it. -/
def Sets (locate : Word -> UInt32) (before after : Processor) : Instruction -> Prop
  | .load register value => after.register register = value
  | .clearCarry => after.carry = false
  | .rotateMemory address =>
      nineBits (after.memory (locate address)) after.carry =
        cycled (nineBits (before.memory (locate address)) before.carry)
  | .rotateRegister register =>
      nineBits (after.register register) after.carry =
        cycled (nineBits (before.register register) before.carry)
  | .addWithCarry address =>
      let total := before.a.toNat + (before.memory (locate address)).toNat + before.carry.toNat
      after.a.toNat = total % 256 ∧ after.carry = decide (256 ≤ total) ∧
        after.zero = decide (after.a.toNat = 0)
  | .decrement register =>
      (after.register register).toNat = ((before.register register).toNat + 255) % 256 ∧
        after.zero = decide ((after.register register).toNat = 0)
  | .branchIfClear _ _ | .halt => after = before

/-- An instruction makes one processor of another: it sets what it sets and leaves alone what
it does not. -/
structure Obeys (locate : Word -> UInt32) (instruction : Instruction)
    (before after : Processor) : Prop where
  sets : Sets locate before after instruction
  register : ∀ register, instruction.sets register = false ->
    after.register register = before.register register
  flag : ∀ flag, instruction.setsFlag flag = false -> after.flag flag = before.flag flag
  memory : ∀ place, instruction.writes?.map locate ≠ some place ->
    after.memory place = before.memory place

/-! ## Parts -/

@[simp] theorem register_withRegister (processor : Processor) (register other : Register)
    (value : UInt8) :
    (processor.withRegister register value).register other =
      if register = other then value else processor.register other := by
  cases register <;> cases other <;> rfl

@[simp] theorem flag_withRegister (processor : Processor) (register : Register) (value : UInt8) :
    (processor.withRegister register value).flag = processor.flag := by
  funext flag
  cases register <;> cases flag <;> rfl

@[simp] theorem memory_withRegister (processor : Processor) (register : Register)
    (value : UInt8) : (processor.withRegister register value).memory = processor.memory := by
  cases register <;> rfl

@[simp] theorem register_withFlag (processor : Processor) (flag : Flag) (value : Bool) :
    (processor.withFlag flag value).register = processor.register := by
  funext register
  cases flag <;> cases register <;> rfl

@[simp] theorem flag_withFlag (processor : Processor) (flag other : Flag) (value : Bool) :
    (processor.withFlag flag value).flag other =
      if flag = other then value else processor.flag other := by
  cases flag <;> cases other <;> rfl

@[simp] theorem memory_withFlag (processor : Processor) (flag : Flag) (value : Bool) :
    (processor.withFlag flag value).memory = processor.memory := by
  cases flag <;> rfl

@[simp] theorem register_write (processor : Processor) (place : UInt32) (value : UInt8) :
    (processor.write place value).register = processor.register := by
  funext register
  cases register <;> rfl

@[simp] theorem flag_write (processor : Processor) (place : UInt32) (value : UInt8) :
    (processor.write place value).flag = processor.flag := by
  funext flag
  cases flag <;> rfl

/-! ## Processors obey instructions -/

theorem act_register {locate : Word -> UInt32} {instruction : Instruction} {register : Register}
    (processor : Processor) (kept : instruction.sets register = false) :
    (processor.act locate instruction).register register = processor.register register := by
  cases instruction <;> simp_all [act, Instruction.sets]

theorem act_flag {locate : Word -> UInt32} {instruction : Instruction} {flag : Flag}
    (processor : Processor) (kept : instruction.setsFlag flag = false) :
    (processor.act locate instruction).flag flag = processor.flag flag := by
  cases instruction <;> simp_all [act, Instruction.setsFlag]

theorem act_memory {locate : Word -> UInt32} {instruction : Instruction} {place : UInt32}
    (processor : Processor) (kept : instruction.writes?.map locate ≠ some place) :
    (processor.act locate instruction).memory place = processor.memory place := by
  cases instruction with
  | rotateMemory address =>
      have elsewhere : place ≠ locate address := by
        rintro rfl
        exact kept rfl
      simp [act, Function.update_of_ne elsewhere]
  | _ => simp [act]

/-- A rotation through the carry flag is a cyclic shift. -/
theorem nineBits_rotate (value : UInt8) (carry : Bool) :
    nineBits (rotate value carry) (lowest value) = cycled (nineBits value carry) := by
  have leaving : (lowest value).toNat = value.toNat % 2 := by
    rw [lowest, Nat.toNat_testBit, Nat.pow_zero, Nat.div_one]
  rw [nineBits, nineBits, cycled, toNat_rotate, leaving]
  omega

theorem act_sets (locate : Word -> UInt32) (instruction : Instruction) (processor : Processor) :
    Sets locate processor (processor.act locate instruction) instruction := by
  cases instruction with
  | load register value => simp [Sets, act]
  | clearCarry => rfl
  | rotateMemory address =>
      have set : (processor.act locate (.rotateMemory address)).memory (locate address) =
          rotate (processor.memory (locate address)) processor.carry := by
        simp [act]
      rw [Sets, set]
      exact nineBits_rotate _ _
  | rotateRegister register =>
      have set : (processor.act locate (.rotateRegister register)).register register =
          rotate (processor.register register) processor.carry := by
        simp [act]
      rw [Sets, set]
      exact nineBits_rotate _ _
  | addWithCarry address =>
      refine ⟨UInt8.toNat_ofNat', rfl, ?_⟩
      exact beq_zero_eq _
  | decrement register =>
      have set : (processor.act locate (.decrement register)).register register =
          processor.register register - 1 := by
        simp [act]
      rw [Sets, set]
      refine ⟨?_, beq_zero_eq _⟩
      exact toNat_sub_one _
  | branchIfClear flag target => rfl
  | halt => rfl

theorem act_obeys (locate : Word -> UInt32) (instruction : Instruction) (processor : Processor) :
    Obeys locate instruction processor (processor.act locate instruction) where
  sets := act_sets locate instruction processor
  register _ kept := processor.act_register kept
  flag _ kept := processor.act_flag kept
  memory _ kept := processor.act_memory kept

end Processor

/-! ## Machines obey instructions -/

/-- Control goes on as an instruction has it: after a branch the condition has the value of the
flag that is tested, negated. -/
def Flow.Obeys (value? : Bit -> Option Bool) (instruction : Instruction) (before : Processor) :
    Flow -> Prop
  | next => instruction.isPlain = true
  | branch condition destination => ∃ flag, instruction = .branchIfClear flag destination ∧
      value? condition = some (!before.flag flag)
  | halt => instruction = .halt

theorem Interpretation.Represents.flow_obeys {I : Interpretation} {strategy : Strategy}
    {machine : Machine} {processor : Processor}
    (represents : I.Represents strategy machine processor) (instruction : Instruction) :
    Returns (instruction.execute machine) fun result =>
      result.2.Obeys I.value? instruction processor := by
  cases instruction with
  | branchIfClear flag target =>
      apply (Succeeds.lift (represents.flag flag).not).returns.bind
      intro condition conditionReads
      exact .pure ⟨flag, rfl, conditionReads⟩
  | halt => exact .pure rfl
  | _ =>
      apply (Instruction.execute_frame _ machine).mono
      intro result frame
      rw [frame.2 rfl]
      exact rfl

namespace Instruction

/-- The variables that occur in the operand of an instruction. -/
def support (instruction : Instruction) : List Nat :=
  (instruction.address?.map Word.support).getD []

theorem Addressed.locatesOperand {instruction : Instruction} {assignment : Assignment}
    (addressed : instruction.Addressed) (covers : assignment.Covers instruction.support) :
    (Interpretation.ofAssignment assignment).LocatesOperand instruction assignment.locate := by
  intro address names
  rw [support, names, Option.map_some, Option.getD_some] at covers
  have denotes := Interpretation.denotes_of_covers (addressed address names) covers
  rw [Assignment.locate, denotes.evaluate_address, Option.getD_some]
  exact denotes.toUInt32

/-- A machine does under every assignment what the instruction says.  The machine evaluates to
a processor, and after the instruction to a processor that the instruction makes of it, so that
all that is not set reads as before.  A branch goes on by the negated flag. -/
theorem execute_evaluates (instruction : Instruction) (machine : Machine)
    (addressed : instruction.Addressed) (wellFormed : machine.WellFormed)
    (assignment : Assignment)
    (covers : assignment.Covers (machine.support ++ instruction.support)) :
    (∃ before, machine.Evaluates assignment before) ∧
    ∀ before, machine.Evaluates assignment before ->
      Succeeds (instruction.execute machine) fun result =>
        (∃ after, result.1.Evaluates assignment after ∧
          Processor.Obeys assignment.locate instruction before after) ∧
        result.2.Obeys assignment.evaluate instruction before := by
  have parts := Assignment.covers_append.mp covers
  rcases wellFormed.exists_processor parts.1 with ⟨processor, represents⟩
  refine ⟨⟨processor, represents.evaluates⟩, ?_⟩
  intro before evaluates
  have same : before = processor := evaluates.foundBy.unique represents.evaluates.foundBy
  subst same
  have located := addressed.locatesOperand parts.2
  have executed := represents.execute 0 instruction located
  apply (executed.and_returns (represents.flow_obeys instruction)).mono
  intro result both
  rcases both with ⟨⟨represented, _⟩, flow⟩
  have reading : assignment.evaluate = (Interpretation.ofAssignment assignment).value? :=
    funext fun bit => Assignment.evaluate_eq assignment bit
  rw [reading]
  exact ⟨⟨_, represented.evaluates, Processor.act_obeys _ _ _⟩, flow⟩

/-- A word is rotated at an address of which one bit is open.  Where that bit is set, the word
next to it stays, and of the nine bits 1 1000 0001 the lowest one enters at the top. -/
theorem execute_evaluates_halfOpen :
    let assignment : Assignment := .ofList [(0, true), (1, true)]
    let instruction : Instruction := .rotateMemory .halfOpenAddress
    instruction.Addressed ∧ Machine.openCarry.WellFormed ∧
    assignment.Covers (Machine.openCarry.support ++ instruction.support) ∧
    ∃ result after, ((instruction.execute .openCarry).run.run {}).1 = .ok result ∧
      result.1.Evaluates assignment after ∧ (after.memory 1).toNat = 192 ∧ after.carry = true ∧
      (after.memory 0).toNat = 6 := by
  intro assignment instruction
  have addressed : instruction.Addressed := by
    intro address names
    cases names
    rfl
  have wellFormed := Machine.openCarry_wellFormed
  have covers : assignment.Covers (Machine.openCarry.support ++ instruction.support) := by
    decide
  refine ⟨addressed, wellFormed, covers, ?_⟩
  rcases execute_evaluates instruction .openCarry addressed wellFormed assignment covers with
    ⟨⟨before, evaluates⟩, executes⟩
  rcases executes before evaluates {} with ⟨result, ended, ⟨after, evaluated, obeys⟩, _⟩
  have located : assignment.locate .halfOpenAddress = 1 := by
    rw [Assignment.locate, Assignment.evaluateWord_eq]
    rfl
  have carry : before.carry = true := by
    have flag := evaluates.flag .carry
    rw [Assignment.evaluate_eq] at flag
    exact (Option.some.inj flag).symm
  have found : (before.memory 1).toNat = 129 := by
    rcases evaluates.foundBy.read 1 {} with ⟨value, read, evaluated⟩
    cases read
    rw [Assignment.evaluateWord_eq] at evaluated
    exact (Option.some.inj evaluated).symm
  have foundBeside : (before.memory 0).toNat = 6 := by
    rcases evaluates.foundBy.read 0 {} with ⟨value, read, evaluated⟩
    cases read
    rw [Assignment.evaluateWord_eq] at evaluated
    exact (Option.some.inj evaluated).symm
  have beside : after.memory 0 = before.memory 0 := by
    apply obeys.memory
    rw [writes?, Option.map_some, located]
    decide
  have rotated : Processor.nineBits (after.memory 1) after.carry = 448 := by
    have sets := obeys.sets
    simp only [instruction, Processor.Sets, located] at sets
    rw [sets, carry, Processor.nineBits, found]
    rfl
  rw [Processor.nineBits] at rotated
  have bound := (after.memory 1).toNat_lt
  have set : after.carry = true := by
    by_contra clear
    rw [Bool.not_eq_true] at clear
    rw [clear, Bool.toNat_false] at rotated
    omega
  rw [set, Bool.toNat_true] at rotated
  exact ⟨result, after, ended, evaluated, by omega, set, beside ▸ foundBeside⟩

end Instruction
end SymbolicMachine
