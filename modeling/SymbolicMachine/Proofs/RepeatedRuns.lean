import SymbolicMachine.Proofs.ExecutionSoundness
import SymbolicMachine.Proofs.RenamedRuns

namespace SymbolicMachine

/-!
# Repeated runs

A program that is run again on the same machine builds everything anew, under names that the session
has not handed out before.  If the names in the program and in the machine have been handed out by
both sessions, these names are all that differs: the two runs end in the same manner, with the same
trace, and with circuits that are the same once names are struck out.

A name that one of the sessions hands out a second time could make a wire be recognised that is a
different one, so nothing is said of such sessions.
-/

/-! ## Circuits without names -/

namespace Bit

/-- The bit with all its wires named alike, so that the circuit is left and nothing else. -/
def anonymous : Bit -> Bit
  | literal value => literal value
  | var id => var id
  | notGate _ input => notGate 0 input.anonymous
  | andGate _ left _ right => andGate 0 left.anonymous 0 right.anonymous

@[simp] theorem anonymous_rename (names : Nat ↪ Nat) (bit : Bit) :
    (bit.rename names).anonymous = bit.anonymous := by
  induction bit with
  | literal value => rfl
  | var id => rfl
  | notGate wire input ih => rw [rename, anonymous, ih, anonymous]
  | andGate leftWire left rightWire right leftIh rightIh =>
      rw [rename, anonymous, leftIh, rightIh, anonymous]

/-- Equal wires need not be descended into. -/
theorem sameShape_wire_iff {wire wire' : Nat} {source source' : Bit}
    (sources : source.sameShape source' = true ↔ source.anonymous = source'.anonymous) :
    (decide (Wire.mk wire source = Wire.mk wire' source') || source.sameShape source') = true ↔
      source.anonymous = source'.anonymous := by
  rw [Bool.or_eq_true, decide_eq_true_eq, sources]
  apply or_iff_right_of_imp
  intro same
  cases same
  rfl

/-- Bits are the same circuit just if they are the same without names. -/
theorem sameShape_iff {first second : Bit} :
    first.sameShape second = true ↔ first.anonymous = second.anonymous := by
  induction first generalizing second with
  | literal value => cases second <;> simp [sameShape, anonymous]
  | var id => cases second <;> simp [sameShape, anonymous]
  | notGate wire input ih =>
      cases second with
      | notGate wire' input' =>
          simp only [sameShape, sameShape_wire_iff ih, anonymous, notGate.injEq, true_and]
      | _ => simp [sameShape, anonymous]
  | andGate leftWire left rightWire right leftIh rightIh =>
      cases second with
      | andGate leftWire' left' rightWire' right' =>
          simp only [sameShape, Bool.and_eq_true, sameShape_wire_iff leftIh,
            sameShape_wire_iff rightIh, anonymous, andGate.injEq, true_and]
      | _ => simp [sameShape, anonymous]

end Bit

namespace Word

def anonymous (word : Word) : Word where
  bits := word.bits.map Bit.anonymous

@[simp] theorem anonymous_rename (names : Nat ↪ Nat) (word : Word) :
    (word.rename names).anonymous = word.anonymous := by
  simp [rename, anonymous, Function.comp_def]

end Word

namespace Cell

def anonymous (cell : Cell) : Cell where
  address := cell.address.anonymous
  value := cell.value.anonymous

@[simp] theorem anonymous_rename (names : Nat ↪ Nat) (cell : Cell) :
    (cell.rename names).anonymous = cell.anonymous := by
  simp [rename, anonymous]

end Cell

namespace ArrayTerm

def anonymous : ArrayTerm -> ArrayTerm
  | constant _ value => constant 0 value.anonymous
  | store _ older address value => store 0 older.anonymous address.anonymous value.anonymous
  | choice _ condition whenTrue whenFalse =>
      choice 0 condition.anonymous whenTrue.anonymous whenFalse.anonymous

@[simp] theorem anonymous_rename (names : Nat ↪ Nat) (term : ArrayTerm) :
    (term.rename names).anonymous = term.anonymous := by
  induction term with
  | constant name value => simp [rename, anonymous]
  | store name older address value ih => simp [rename, anonymous, ih]
  | choice name condition whenTrue whenFalse trueIh falseIh =>
      simp [rename, anonymous, trueIh, falseIh]

end ArrayTerm

namespace Memory

def anonymous : Memory -> Memory
  | dense memory => dense ⟨memory.default.anonymous, memory.cells.map Cell.anonymous⟩
  | array term => array term.anonymous

@[simp] theorem anonymous_rename (names : Nat ↪ Nat) (memory : Memory) :
    (memory.rename names).anonymous = memory.anonymous := by
  cases memory with
  | dense memory => simp [rename, anonymous, DenseMemory.rename, Function.comp_def]
  | array term => simp [rename, anonymous]

end Memory

namespace Machine

/-- The machine with one name in the place of all. -/
def anonymous (machine : Machine) : Machine where
  memory := machine.memory.anonymous
  x := machine.x.anonymous
  a := machine.a.anonymous
  carry := machine.carry.anonymous
  zero := machine.zero.anonymous

@[simp] theorem anonymous_rename (names : Nat ↪ Nat) (machine : Machine) :
    (machine.rename names).anonymous = machine.anonymous := by
  simp [rename, anonymous]

end Machine

/-- Finished runs that differ in nothing but names. -/
structure Execution.SameShape (first second : Execution) : Prop where
  trace : first.trace = second.trace
  predicate : first.predicate.sameShape second.predicate = true
  machine : first.machine.anonymous = second.machine.anonymous

namespace Execution.SameShape

variable {first second : Execution}

theorem refl (execution : Execution) : execution.SameShape execution :=
  ⟨rfl, Bit.sameShape_iff.mpr rfl, rfl⟩

theorem symm (same : first.SameShape second) : second.SameShape first :=
  ⟨same.trace.symm, Bit.sameShape_iff.mpr (Bit.sameShape_iff.mp same.predicate).symm,
    same.machine.symm⟩

theorem rename (names : Nat ↪ Nat) (execution : Execution) :
    execution.SameShape (execution.rename names) :=
  ⟨rfl, Bit.sameShape_iff.mpr (execution.predicate.anonymous_rename names).symm,
    (execution.machine.anonymous_rename names).symm⟩

end Execution.SameShape

/-! ## Names that have been handed out -/

/-- The names of the nodes of a recorded array. -/
def ArrayTerm.nodes : ArrayTerm -> List Nat
  | constant name _ => [name]
  | store name older _ _ => name :: older.nodes
  | choice name _ whenTrue whenFalse => name :: (whenTrue.nodes ++ whenFalse.nodes)

def Memory.nodes : Memory -> List Nat
  | dense _ => []
  | array term => term.nodes

/-- Every name in a machine is below a bound. -/
structure Machine.NamedBelow (machine : Machine) (bound : Nat) : Prop where
  bits : ∀ bit ∈ machine.bits, bit.NamedBelow bound
  nodes : ∀ name ∈ machine.memory.nodes, name < bound

/-- Every name in the operands of a program is below a bound. -/
def Program.NamedBelow (program : Program) (bound : Nat) : Prop :=
  ∀ instruction ∈ program.instructions, ∀ address, instruction.address? = some address ->
    ∀ bit ∈ address.bits, bit.NamedBelow bound

variable {bound : Nat}

instance Bit.decidableNamedBelow : (bit : Bit) -> Decidable (bit.NamedBelow bound)
  | literal _ => .isTrue trivial
  | var _ => .isTrue trivial
  | notGate wire input =>
      have := input.decidableNamedBelow
      inferInstanceAs (Decidable (wire < bound ∧ input.NamedBelow bound))
  | andGate leftWire left rightWire right =>
      have := left.decidableNamedBelow
      have := right.decidableNamedBelow
      inferInstanceAs (Decidable (leftWire < bound ∧ left.NamedBelow bound ∧ rightWire < bound ∧
        right.NamedBelow bound))

instance (machine : Machine) : Decidable (machine.NamedBelow bound) :=
  decidable_of_iff ((∀ bit ∈ machine.bits, bit.NamedBelow bound) ∧
      ∀ name ∈ machine.memory.nodes, name < bound)
    ⟨fun both => ⟨both.1, both.2⟩, fun below => ⟨below.bits, below.nodes⟩⟩

instance (program : Program) : Decidable (program.NamedBelow bound) :=
  inferInstanceAs (Decidable (∀ instruction ∈ program.instructions,
    ∀ address ∈ instruction.address?, ∀ bit ∈ address.bits, bit.NamedBelow bound))

theorem ArrayTerm.rename_moveUp {term : ArrayTerm}
    (bits : ∀ bit ∈ term.bits, bit.NamedBelow bound) (nodes : ∀ name ∈ term.nodes, name < bound)
    (distance : Nat) : term.rename (moveUp bound distance) = term := by
  induction term with
  | constant name value =>
      rw [rename, moveUp_of_lt (nodes name List.mem_cons_self), Word.rename_moveUp bits]
  | store name older address value ih =>
      rw [ArrayTerm.bits, List.forall_mem_append, List.forall_mem_append] at bits
      rw [ArrayTerm.nodes, List.forall_mem_cons] at nodes
      rw [rename, moveUp_of_lt nodes.1, ih bits.1 nodes.2, Word.rename_moveUp bits.2.1,
        Word.rename_moveUp bits.2.2]
  | choice name condition whenTrue whenFalse trueIh falseIh =>
      rw [ArrayTerm.bits, List.forall_mem_cons, List.forall_mem_append] at bits
      rw [ArrayTerm.nodes, List.forall_mem_cons, List.forall_mem_append] at nodes
      rw [rename, moveUp_of_lt nodes.1, Bit.rename_moveUp bits.1, trueIh bits.2.1 nodes.2.1,
        falseIh bits.2.2 nodes.2.2]

theorem Cell.rename_moveUp {cell : Cell} (bits : ∀ bit ∈ cell.bits, bit.NamedBelow bound)
    (distance : Nat) : cell.rename (moveUp bound distance) = cell := by
  rw [Cell.bits, List.forall_mem_append] at bits
  rw [rename, Word.rename_moveUp bits.1, Word.rename_moveUp bits.2]

theorem Memory.rename_moveUp {memory : Memory}
    (bits : ∀ bit ∈ memory.bits, bit.NamedBelow bound) (nodes : ∀ name ∈ memory.nodes, name < bound)
    (distance : Nat) : memory.rename (moveUp bound distance) = memory := by
  cases memory with
  | dense memory =>
      rw [Memory.bits, List.forall_mem_append] at bits
      have cells : memory.cells.map (Cell.rename (moveUp bound distance)) = memory.cells.map id := by
        apply List.map_congr_left
        intro cell member
        apply Cell.rename_moveUp
        intro bit inside
        exact bits.2 bit (List.mem_flatMap.mpr ⟨cell, member, inside⟩)
      rw [rename, DenseMemory.rename, Word.rename_moveUp bits.1, cells, List.map_id]
  | array term => rw [rename, ArrayTerm.rename_moveUp bits nodes]

theorem Machine.NamedBelow.rename_moveUp {machine : Machine} (below : machine.NamedBelow bound)
    (distance : Nat) : machine.rename (moveUp bound distance) = machine := by
  have bits := below.bits
  simp only [Machine.bits, List.forall_mem_append, List.forall_mem_cons] at bits
  rcases bits with ⟨memory, ⟨x, a⟩, carry, zero, _⟩
  rw [rename, Memory.rename_moveUp memory below.nodes, Word.rename_moveUp x, Word.rename_moveUp a,
    Bit.rename_moveUp carry, Bit.rename_moveUp zero]

theorem Program.NamedBelow.rename_moveUp {program : Program} (below : program.NamedBelow bound)
    (distance : Nat) :
    program.instructions = program.instructions.map (Instruction.rename (moveUp bound distance)) := by
  have instructions : program.instructions.map (Instruction.rename (moveUp bound distance)) =
      program.instructions.map id := by
    apply List.map_congr_left
    intro instruction member
    have operand := below instruction member
    cases instruction with
    | rotateMemory address | addWithCarry address =>
        rw [Instruction.rename, Word.rename_moveUp (operand address rfl), id]
    | _ => rfl
  rw [instructions, List.map_id]

/-! ## Another session -/

theorem OutcomesAlike.refl {ε α : Type} {related : α -> α -> Prop}
    (reflexive : ∀ value, related value value) (outcome : Except ε α) :
    OutcomesAlike related outcome outcome := by
  cases outcome with
  | ok value => exact .ok (reflexive value)
  | error cause => exact .error cause

theorem OutcomesAlike.mono {ε α β : Type} {related weaker : α -> β -> Prop} {first : Except ε α}
    {second : Except ε β} (alike : OutcomesAlike related first second)
    (implied : ∀ value other, related value other -> weaker value other) :
    OutcomesAlike weaker first second := by
  cases alike with
  | ok results => exact .ok (implied _ _ results)
  | error cause => exact .error cause

theorem OutcomesAlike.symm {ε α β : Type} {related : α -> β -> Prop} {reverse : β -> α -> Prop}
    {first : Except ε α} {second : Except ε β} (alike : OutcomesAlike related first second)
    (turned : ∀ value other, related value other -> reverse other value) :
    OutcomesAlike reverse second first := by
  cases alike with
  | ok results => exact .ok (turned _ _ results)
  | error cause => exact .error cause

theorem OutcomesAlike.exists_of_ok {δ ε α β : Type} {related : α -> β -> Prop} {value : α}
    {outcome : Except δ (Except ε β)}
    (alike : OutcomesAlike (OutcomesAlike related) (.ok (.ok value)) outcome) :
    ∃ other, outcome = .ok (.ok other) ∧ related value other := by
  cases alike with
  | ok outcomes =>
      cases outcomes with
      | ok results => exact ⟨_, rfl, results⟩

theorem OutcomesAlike.eq_of_error {δ ε α β : Type} {related : α -> β -> Prop} {cause : ε}
    {outcome : Except δ (Except ε β)}
    (alike : OutcomesAlike (OutcomesAlike related) (.ok (.error cause)) outcome) :
    outcome = .ok (.error cause) := by
  cases alike with
  | ok outcomes =>
      cases outcomes with
      | error => rfl

namespace Program

variable {program : Program} {machine : Machine}

/-- A session has handed out all names in a program and in a machine. -/
structure Issued (program : Program) (machine : Machine) (session : Session) : Prop where
  program : program.NamedBelow session.nextName
  machine : machine.NamedBelow session.nextName

instance (session : Session) : Decidable (program.Issued machine session) :=
  decidable_of_iff (program.NamedBelow session.nextName ∧ machine.NamedBelow session.nextName)
    ⟨fun both => ⟨both.1, both.2⟩, fun issued => ⟨issued.program, issued.machine⟩⟩

theorem Issued.outcomes_alike {older newer : Session} (issued : program.Issued machine older)
    (aged : older.nextName ≤ newer.nextName) (limit : Nat) :
    OutcomesAlike (OutcomesAlike Execution.SameShape)
      ((program.run machine limit).run.run.run older).1
      ((program.run machine limit).run.run.run newer).1 := by
  have same := issued.program.rename_moveUp (newer.nextName - older.nextName)
  have alike := alike_run same machine limit older newer (Session.renamed_moveUp aged)
  rw [issued.machine.rename_moveUp] at alike
  apply alike.1.mono
  intro outcome other outcomes
  apply outcomes.mono
  rintro execution _ rfl
  exact .rename _ execution

/-- A run comes to the same in both sessions: they are one, or both have handed out all names in the
program and in the machine. -/
def Repeatable (program : Program) (machine : Machine) (first second : Session) : Prop :=
  first = second ∨ program.Issued machine first ∧ program.Issued machine second

theorem Repeatable.outcomes_alike {first second : Session}
    (repeatable : program.Repeatable machine first second) (limit : Nat) :
    OutcomesAlike (OutcomesAlike Execution.SameShape)
      ((program.run machine limit).run.run.run first).1
      ((program.run machine limit).run.run.run second).1 := by
  rcases repeatable with rfl | ⟨firstIssued, secondIssued⟩
  · exact .refl (.refl Execution.SameShape.refl) _
  · rcases Nat.le_total first.nextName second.nextName with aged | aged
    · exact firstIssued.outcomes_alike aged limit
    · apply (secondIssued.outcomes_alike aged limit).symm
      intro outcome other outcomes
      exact outcomes.symm fun _ _ same => same.symm

end Program
end SymbolicMachine
