import SymbolicMachine.Proofs.MemoryMap
import SymbolicMachine.Proofs.Processor

namespace SymbolicMachine

/-!
# Machines as processors

Under an interpretation a machine represents a processor, and what is done to the machine
is done to the processor.  This holds for each part that is read or set, for a merge,
which represents one of two processors, and for every instruction: the machine after it
represents the processor after it, and the flow of control leads to where the processor
goes on.

The shape of the memory is carried along because only memories of one shape can be
merged.
-/

namespace Processor

theorem toNat_rotate (value : UInt8) (carry : Bool) :
    (rotate value carry).toNat = value.toNat / 2 + 2 ^ 7 * carry.toNat := by
  have bound := value.toNat_lt
  cases carry with
  | false => simp [rotate]
  | true =>
      simp only [rotate, if_true, UInt8.toNat_add, UInt8.toNat_div, UInt8.reduceToNat,
        Bool.toNat_true]
      omega

theorem toNat_ofTotal (total : Nat) : (UInt8.ofNat total).toNat = total % 2 ^ wordBits :=
  UInt8.toNat_ofNat'

theorem toNat_sub_one (value : UInt8) :
    (value - 1).toNat = (value.toNat + (2 ^ wordBits - 1 % 2 ^ wordBits)) % 2 ^ wordBits := by
  rw [UInt8.toNat_sub, Nat.add_comm]
  rfl

theorem beq_zero_eq (value : UInt8) : (value == 0) = decide (value.toNat = 0) := by
  rw [Bool.eq_iff_iff, beq_iff_eq, decide_eq_true_iff]
  exact UInt8.toNat_inj.symm

end Processor

namespace Interpretation

/-- The parts of a machine stand for the parts of a processor. -/
structure Represents (I : Interpretation) (strategy : Strategy) (machine : Machine)
    (processor : Processor) : Prop where
  shape : machine.memory.strategy = strategy
  memory : ∃ map, I.Holds addressBits wordBits machine.memory map ∧
    ∀ place : UInt32, map place.toNat = (processor.memory place).toNat
  register : ∀ register,
    I.Denotes wordBits (machine.register register) (processor.register register).toNat
  flag : ∀ flag, I.Reads (machine.flag flag) (processor.flag flag)

/-- The word that names an address in an instruction, if there is one, denotes the place
where it is located. -/
def LocatesOperand (I : Interpretation) (instruction : Instruction)
    (locate : Word -> UInt32) : Prop :=
  ∀ address, instruction.address? = some address ->
    I.Denotes addressBits address (locate address).toNat

/-- The flow of control after the instruction at `pc` leads to a point of the program. -/
def Leads (I : Interpretation) (pc : Nat) : Flow -> Control -> Prop
  | .next, control => control = .running (pc + 1)
  | .branch condition destination, control => ∃ taken, I.Reads condition taken ∧
      control = .running (if taken then destination else pc + 1)
  | .halt, control => control = .halted

variable {I : Interpretation} {strategy : Strategy} {machine : Machine} {processor : Processor}

theorem Denotes.toUInt8 {word : Word} {n : Nat} (denotes : I.Denotes wordBits word n) :
    I.Denotes wordBits word (UInt8.ofNat n).toNat := by
  rwa [UInt8.toNat_ofNat_of_lt' denotes.lt]

theorem Denotes.toUInt32 {word : Word} {n : Nat} (denotes : I.Denotes addressBits word n) :
    I.Denotes addressBits word (UInt32.ofNat n).toNat := by
  rwa [UInt32.toNat_ofNat_of_lt' denotes.lt]

theorem Denotes.evaluate_word {assignment : Assignment} {word : Word} {n : Nat}
    (denotes : (ofAssignment assignment).Denotes wordBits word n) :
    assignment.evaluateWord word = some n :=
  denotes.evaluateWord (by decide)

theorem Denotes.evaluate_address {assignment : Assignment} {address : Word} {p : Nat}
    (denotes : (ofAssignment assignment).Denotes addressBits address p) :
    assignment.evaluateWord address = some p :=
  denotes.evaluateWord (by decide)

/-! ## Width checks -/

theorem Denotes.requireRegister {value : Word} {v : Nat} (denotes : I.Denotes wordBits value v)
    (register : Register) : Succeeds (Machine.requireRegister register value) fun _ => True :=
  .require (beq_iff_eq.mpr denotes.width_eq)

theorem Denotes.requireAddress {address : Word} {p : Nat}
    (denotes : I.Denotes addressBits address p) :
    Succeeds (Machine.requireAddress address) fun _ => True :=
  .require (beq_iff_eq.mpr denotes.width_eq)

theorem Denotes.requireWord {value : Word} {v : Nat} (denotes : I.Denotes wordBits value v) :
    Succeeds (Machine.requireWord value) fun _ => True :=
  .require (beq_iff_eq.mpr denotes.width_eq)

/-! ## Counting down -/

/-- Counting a register down goes from zero to the greatest word, says whether zero has been
reached, and leaves all other parts as they are. -/
theorem Denotes.decrement {n : Nat} (denotes : I.Denotes wordBits machine.x n) :
    Succeeds ((Instruction.decrement .x).execute machine) fun result =>
      ∃ difference zero, result = ({ machine with x := difference, zero := zero }, .next) ∧
        I.Denotes wordBits difference ((n + 255) % 256) ∧
        I.Reads zero (decide ((n + 255) % 256 = 0)) := by
  apply (denotes.sub (denotes_constant 1 wordBits)).bind
  intro difference differenceDenotes
  change I.Denotes wordBits difference ((n + 255) % 256) at differenceDenotes
  have compared := differenceDenotes.equals (denotes_zero wordBits)
  rw [← differenceDenotes.width_eq] at compared
  apply compared.bind
  intro zero zeroReads
  have set : Succeeds (machine.withRegister .x difference) fun changed =>
      changed = { machine with x := difference } :=
    (differenceDenotes.requireRegister .x).bind fun _ _ => .pure rfl
  apply set.bind
  rintro _ rfl
  exact .pure ⟨difference, zero, rfl, differenceDenotes, zeroReads⟩

/-! ## Parts -/

namespace Represents

theorem withRegister (represents : I.Represents strategy machine processor) {value : Word}
    {v : UInt8} (register : Register) (denotes : I.Denotes wordBits value v.toNat) :
    Succeeds (machine.withRegister register value) fun changed =>
      I.Represents strategy changed (processor.withRegister register v) := by
  apply (denotes.requireRegister register).bind
  intro _ _
  cases register with
  | x =>
      apply Succeeds.pure
      refine ⟨represents.shape, represents.memory, ?_, represents.flag⟩
      intro other
      cases other with
      | x => exact denotes
      | a => exact represents.register .a
  | a =>
      apply Succeeds.pure
      refine ⟨represents.shape, represents.memory, ?_, represents.flag⟩
      intro other
      cases other with
      | x => exact represents.register .x
      | a => exact denotes

theorem withFlag (represents : I.Represents strategy machine processor) {bit : Bit} {value : Bool}
    (flag : Flag) (reads : I.Reads bit value) :
    I.Represents strategy (machine.withFlag flag bit) (processor.withFlag flag value) := by
  cases flag with
  | carry =>
      refine ⟨represents.shape, represents.memory, represents.register, ?_⟩
      intro other
      cases other with
      | carry => exact reads
      | zero => exact represents.flag .zero
  | zero =>
      refine ⟨represents.shape, represents.memory, represents.register, ?_⟩
      intro other
      cases other with
      | carry => exact represents.flag .carry
      | zero => exact reads

theorem read (represents : I.Represents strategy machine processor) {address : Word}
    {place : UInt32} (denotes : I.Denotes addressBits address place.toNat) :
    Succeeds (machine.read address) fun value =>
      I.Denotes wordBits value (processor.memory place).toNat := by
  rcases represents.memory with ⟨map, holds, entries⟩
  apply denotes.requireAddress.bind
  intro _ _
  rw [← entries place]
  exact holds.read denotes

theorem write (represents : I.Represents strategy machine processor) {address value : Word}
    {place : UInt32} {v : UInt8} (addressDenotes : I.Denotes addressBits address place.toNat)
    (valueDenotes : I.Denotes wordBits value v.toNat) :
    Succeeds (machine.write address value) fun changed =>
      I.Represents strategy changed (processor.write place v) := by
  rcases represents.memory with ⟨map, holds, entries⟩
  apply addressDenotes.requireAddress.bind
  intro _ _
  apply valueDenotes.requireWord.bind
  intro _ _
  apply (Succeeds.lift (holds.write addressDenotes valueDenotes)).bind
  rintro written ⟨shape, writtenHolds⟩
  apply Succeeds.pure
  refine ⟨shape.trans represents.shape, ⟨_, writtenHolds, ?_⟩, represents.register,
    represents.flag⟩
  intro other
  by_cases same : other = place
  · rw [same, Processor.memory_write, Function.update_self, Function.update_self]
  · have elsewhere : other.toNat ≠ place.toNat := fun equal => same (UInt32.toNat_inj.mp equal)
    rw [Processor.memory_write, Function.update_of_ne elsewhere, Function.update_of_ne same, entries]

theorem isZero {word : Word} {value : UInt8} (denotes : I.Denotes wordBits word value.toNat) :
    Succeeds (Instruction.isZero word) fun result => I.Reads result (value == 0) := by
  rw [Instruction.isZero, denotes.width_eq]
  apply (denotes.equals (denotes_zero wordBits)).mono
  intro result reads
  rwa [Processor.beq_zero_eq]

/-! ## Filling memory -/

theorem cleared {fill : Word} {value : UInt8} (strategy : Strategy)
    (denotes : I.Denotes wordBits fill value.toNat) :
    Succeeds (Machine.cleared strategy fill) fun machine =>
      I.Represents strategy machine ⟨fun _ => value, 0, 0, false, false⟩ := by
  apply denotes.requireWord.bind
  intro _ _
  apply (Succeeds.lift (holds_reset addressBits strategy denotes)).bind
  rintro memory ⟨shape, holds⟩
  apply Succeeds.pure
  refine ⟨shape, ⟨_, holds, fun _ => rfl⟩, ?_, ?_⟩
  · intro register
    cases register <;> exact denotes_zero wordBits
  · intro flag
    cases flag <;> exact reads_literal false

theorem fillMemory (represents : I.Represents strategy machine processor) {fill : Word}
    {value : UInt8} (denotes : I.Denotes wordBits fill value.toNat) :
    Succeeds (machine.fillMemory fill) fun changed =>
      I.Represents strategy changed { processor with memory := fun _ => value } := by
  apply denotes.requireWord.bind
  intro _ _
  apply (Succeeds.lift (holds_reset addressBits machine.memory.strategy denotes)).bind
  rintro memory ⟨shape, holds⟩
  apply Succeeds.pure
  exact ⟨shape.trans represents.shape, ⟨_, holds, fun _ => rfl⟩, represents.register,
    represents.flag⟩

/-! ## Merging -/

/-- A merge represents one of both processors. -/
theorem merge {condition : Bit} {c : Bool} {whenTrue whenFalse : Machine} {left right : Processor}
    (conditionReads : I.Reads condition c) (leftRepresents : I.Represents strategy whenTrue left)
    (rightRepresents : I.Represents strategy whenFalse right) :
    Succeeds (Machine.merge condition whenTrue whenFalse) fun merged =>
      I.Represents strategy merged (if c then left else right) := by
  unfold Machine.merge
  cases known : condition.known with
  | some value =>
      have decided : c = value := conditionReads.eq_of_known known
      subst decided
      cases c with
      | true => exact .pure leftRepresents
      | false => exact .pure rightRepresents
  | none =>
      rcases leftRepresents.memory with ⟨leftMap, leftHolds, leftEntries⟩
      rcases rightRepresents.memory with ⟨rightMap, rightHolds, rightEntries⟩
      have sameShape := leftRepresents.shape.trans rightRepresents.shape.symm
      apply (leftHolds.merge conditionReads sameShape rightHolds).bind
      rintro memory ⟨shape, holds⟩
      apply ((leftRepresents.register .x).select conditionReads (rightRepresents.register .x)).bind
      intro x xDenotes
      apply ((leftRepresents.register .a).select conditionReads (rightRepresents.register .a)).bind
      intro a aDenotes
      apply (Succeeds.lift (conditionReads.select (leftRepresents.flag .carry)
        (rightRepresents.flag .carry))).bind
      intro carry carryReads
      apply (Succeeds.lift (conditionReads.select (leftRepresents.flag .zero)
        (rightRepresents.flag .zero))).bind
      intro zero zeroReads
      apply Succeeds.pure
      refine ⟨shape.trans leftRepresents.shape, ⟨_, holds, ?_⟩, ?_, ?_⟩
      · intro place
        rw [leftEntries, rightEntries]
        cases c <;> rfl
      · intro register
        cases register <;> cases c <;> assumption
      · intro flag
        cases flag <;> cases c <;> assumption

/-! ## Instructions -/

variable {locate : Word -> UInt32}

/-- What an instruction does to a machine, it does to the processor that the machine
represents. -/
theorem execute (represents : I.Represents strategy machine processor) (pc : Nat)
    (instruction : Instruction)
    (located : I.LocatesOperand instruction locate) :
    Succeeds (instruction.execute machine) fun result =>
      I.Represents strategy result.1 (processor.act locate instruction) ∧
      I.Leads pc result.2 (processor.after instruction pc) := by
  cases instruction with
  | load register value =>
      have denotes : I.Denotes wordBits (.constant value.toNat wordBits) value.toNat :=
        denotes_constant_of_lt value.toNat_lt
      apply (represents.withRegister register denotes).bind
      intro changed changedRepresents
      exact .pure ⟨changedRepresents, rfl⟩
  | clearCarry => exact .pure ⟨represents.withFlag .carry (reads_literal false), rfl⟩
  | rotateMemory address =>
      have addressDenotes := located address rfl
      apply (represents.read addressDenotes).bind
      intro value valueDenotes
      apply (valueDenotes.rotateRight (represents.flag .carry)).bind
      rintro ⟨rotated, carry⟩ ⟨rotatedDenotes, carryReads⟩
      rw [← Processor.toNat_rotate] at rotatedDenotes
      apply (represents.write addressDenotes rotatedDenotes).bind
      intro changed changedRepresents
      exact .pure ⟨changedRepresents.withFlag .carry carryReads, rfl⟩
  | rotateRegister register =>
      apply ((represents.register register).rotateRight (represents.flag .carry)).bind
      rintro ⟨rotated, carry⟩ ⟨rotatedDenotes, carryReads⟩
      rw [← Processor.toNat_rotate] at rotatedDenotes
      apply (represents.withRegister register rotatedDenotes).bind
      intro changed changedRepresents
      exact .pure ⟨changedRepresents.withFlag .carry carryReads, rfl⟩
  | addWithCarry address =>
      apply (represents.read (located address rfl)).bind
      intro operand operandDenotes
      apply ((represents.register .a).addWithCarry operandDenotes (represents.flag .carry)).bind
      rintro ⟨sum, carry⟩ ⟨sumDenotes, carryReads⟩
      rw [← Processor.toNat_ofTotal] at sumDenotes
      apply (isZero sumDenotes).bind
      intro zero zeroReads
      apply (represents.withRegister .a sumDenotes).bind
      intro changed changedRepresents
      exact .pure ⟨(changedRepresents.withFlag .carry carryReads).withFlag .zero zeroReads, rfl⟩
  | decrement register =>
      apply ((represents.register register).sub (denotes_constant 1 wordBits)).bind
      intro difference differenceDenotes
      rw [← Processor.toNat_sub_one] at differenceDenotes
      apply (isZero differenceDenotes).bind
      intro zero zeroReads
      apply (represents.withRegister register differenceDenotes).bind
      intro changed changedRepresents
      exact .pure ⟨changedRepresents.withFlag .zero zeroReads, rfl⟩
  | branchIfClear flag target =>
      apply (Succeeds.lift (represents.flag flag).not).bind
      intro condition conditionReads
      refine .pure ⟨represents, _, conditionReads, ?_⟩
      rw [Processor.after]
      cases processor.flag flag <;> rfl
  | halt => exact .pure ⟨represents, rfl⟩

end Represents
end Interpretation
end SymbolicMachine
