import SymbolicMachine.Proofs.Exploration

namespace SymbolicMachine

/-!
# Soundness of symbolic execution

A machine of words of the right widths evaluates to a processor under every assignment of
its variables.  What the processor is can be seen from outside: it is given by what the
registers, the flags and the word read at any address evaluate to.

If a program runs to an end on such a machine, then under every assignment the processor
runs to a halt from the processor that the first machine evaluates to, and the last
machine evaluates to the processor in which it halts.  One symbolic run thus stands for
the runs under all assignments.
-/

/-! ## Well-formed machines -/

/-- All recorded addresses and all recorded values have given widths. -/
def ArrayTerm.Uniform (addressWidth valueWidth : Nat) : ArrayTerm -> Prop
  | .constant _ value => value.width = valueWidth
  | .store _ older address value =>
      older.Uniform addressWidth valueWidth ∧ address.width = addressWidth ∧
        value.width = valueWidth
  | .choice _ _ whenTrue whenFalse =>
      whenTrue.Uniform addressWidth valueWidth ∧ whenFalse.Uniform addressWidth valueWidth

def ArrayTerm.support : ArrayTerm -> List Nat
  | .constant _ value => value.support
  | .store _ older address value => older.support ++ (address.support ++ value.support)
  | .choice _ condition whenTrue whenFalse =>
      condition.support ++ (whenTrue.support ++ whenFalse.support)

def Cell.support (cell : Cell) : List Nat :=
  cell.address.support ++ cell.value.support

/-- All addresses and all values in a memory have given widths. -/
def Memory.Uniform (addressWidth valueWidth : Nat) : Memory -> Prop
  | .dense memory => memory.default.width = valueWidth ∧
      ∀ cell ∈ memory.cells, cell.address.width = addressWidth ∧ cell.value.width = valueWidth
  | .array term => term.Uniform addressWidth valueWidth

def Memory.support : Memory -> List Nat
  | .dense memory => memory.default.support ++ memory.cells.flatMap Cell.support
  | .array term => term.support

/-- Registers and memory hold machine words, and memory is addressed by addresses. -/
structure Machine.WellFormed (machine : Machine) : Prop where
  register : ∀ register, (machine.register register).width = wordBits
  memory : machine.memory.Uniform addressBits wordBits

def Machine.support (machine : Machine) : List Nat :=
  machine.memory.support ++ (machine.x.support ++ machine.a.support ++
    (machine.carry.support ++ machine.zero.support))

/-- The bits that occur in a recorded array. -/
def ArrayTerm.bits : ArrayTerm -> List Bit
  | .constant _ value => value.bits
  | .store _ older address value => older.bits ++ (address.bits ++ value.bits)
  | .choice _ condition whenTrue whenFalse => condition :: (whenTrue.bits ++ whenFalse.bits)

def Cell.bits (cell : Cell) : List Bit :=
  cell.address.bits ++ cell.value.bits

def Memory.bits : Memory -> List Bit
  | .dense memory => memory.default.bits ++ memory.cells.flatMap Cell.bits
  | .array term => term.bits

/-- The bits that occur in a machine, with repetitions. -/
def Machine.bits (machine : Machine) : List Bit :=
  machine.memory.bits ++ (machine.x.bits ++ machine.a.bits ++ [machine.carry, machine.zero])

theorem ArrayTerm.support_eq (term : ArrayTerm) : term.support = term.bits.flatMap Bit.support := by
  induction term with
  | constant name value => rfl
  | store name older address value ih => simp [support, bits, ih, Word.support]
  | choice name condition whenTrue whenFalse trueIh falseIh =>
      simp [support, bits, trueIh, falseIh]

theorem Cell.support_eq : Cell.support = fun cell => cell.bits.flatMap Bit.support := by
  funext cell
  simp [support, bits, Word.support]

theorem Memory.support_eq (memory : Memory) :
    memory.support = memory.bits.flatMap Bit.support := by
  cases memory with
  | dense memory =>
      simp [support, bits, List.flatMap_assoc, Cell.support_eq, Word.support]
  | array term => exact term.support_eq

theorem Machine.support_eq (machine : Machine) :
    machine.support = machine.bits.flatMap Bit.support := by
  simp [support, bits, Memory.support_eq, Word.support]

/-- Every word that names an address in a program has the width of an address. -/
def Program.Addressed (program : Program) : Prop :=
  ∀ instruction ∈ program.instructions, ∀ address, instruction.address? = some address ->
    address.width = addressBits

def Program.support (program : Program) : List Nat :=
  program.instructions.flatMap fun instruction =>
    (instruction.address?.map Word.support).getD []

/-! ## Evaluation to a processor -/

/-- Where the evaluation of a word points into the memory of a processor. -/
def Assignment.locate (assignment : Assignment) (address : Word) : UInt32 :=
  .ofNat ((assignment.evaluateWord address).getD 0)

/-- Everything that can be read from a machine evaluates to what a processor holds. -/
structure Machine.Evaluates (machine : Machine) (assignment : Assignment)
    (processor : Processor) : Prop where
  register : ∀ register, assignment.evaluateWord (machine.register register) =
    some (processor.register register).toNat
  flag : ∀ flag, assignment.evaluate (machine.flag flag) = some (processor.flag flag)
  read : ∀ (address : Word) (place : UInt32), address.width = addressBits ->
    assignment.evaluateWord address = some place.toNat ->
    Succeeds (machine.read address) fun value =>
      assignment.evaluateWord value = some (processor.memory place).toNat

variable {assignment : Assignment} {machine : Machine} {addressWidth valueWidth : Nat}

namespace Interpretation

variable {I : Interpretation}

/-- Every one of the bits has a value. -/
def ReadsAll (I : Interpretation) (bits : List Bit) : Prop :=
  ∀ bit ∈ bits, ∃ value, I.Reads bit value

theorem readsAll_append {first second : List Bit} :
    I.ReadsAll (first ++ second) ↔ I.ReadsAll first ∧ I.ReadsAll second := by
  simp only [ReadsAll, List.mem_append, or_imp, forall_and]

theorem readsAll_of_covers {bits : List Bit}
    (covers : assignment.Covers (bits.flatMap Bit.support)) :
    (ofAssignment assignment).ReadsAll bits := by
  intro bit member
  exact ⟨_, reads_of_covers (Assignment.covers_flatMap.mp covers bit member)⟩

theorem ReadsAll.exists_values {bits : List Bit} (reads : I.ReadsAll bits) :
    ∃ values, List.Forall₂ I.Reads bits values := by
  induction bits with
  | nil => exact ⟨[], .nil⟩
  | cons bit rest ih =>
      rcases reads bit List.mem_cons_self with ⟨value, head⟩
      rcases ih (fun other member => reads other (List.mem_cons_of_mem _ member))
        with ⟨values, tail⟩
      exact ⟨value :: values, .cons head tail⟩

theorem ReadsAll.denotes {word : Word} {width : Nat} (reads : I.ReadsAll word.bits)
    (hasWidth : word.width = width) : ∃ number, I.Denotes width word number := by
  rcases reads.exists_values with ⟨values, related⟩
  exact ⟨_, values, related, related.length_eq.symm.trans hasWidth, rfl⟩

theorem ReadsAll.holdsTerm {term : ArrayTerm} (reads : I.ReadsAll term.bits)
    (uniform : term.Uniform addressWidth valueWidth) :
    ∃ map, I.HoldsTerm addressWidth valueWidth term map := by
  induction term with
  | constant name value =>
      rcases reads.denotes uniform with ⟨v, denotes⟩
      exact ⟨_, .constant denotes⟩
  | store name older address value ih =>
      have parts := readsAll_append.mp reads
      have operands := readsAll_append.mp parts.2
      rcases operands.1.denotes uniform.2.1 with ⟨p, addressDenotes⟩
      rcases operands.2.denotes uniform.2.2 with ⟨v, valueDenotes⟩
      rcases ih parts.1 uniform.1 with ⟨map, holds⟩
      exact ⟨_, .store holds addressDenotes valueDenotes⟩
  | choice name condition whenTrue whenFalse trueIh falseIh =>
      rcases reads condition List.mem_cons_self with ⟨c, conditionReads⟩
      have branches := readsAll_append.mp fun bit member =>
        reads bit (List.mem_cons_of_mem _ member)
      rcases trueIh branches.1 uniform.1 with ⟨left, leftHolds⟩
      rcases falseIh branches.2 uniform.2 with ⟨right, rightHolds⟩
      exact ⟨_, .choice conditionReads leftHolds rightHolds⟩

theorem ReadsAll.holdsCells {default : Word} {cells : List Cell}
    (defaultReads : I.ReadsAll default.bits)
    (defaultWidth : default.width = valueWidth) (reads : I.ReadsAll (cells.flatMap Cell.bits))
    (uniform : ∀ cell ∈ cells, cell.address.width = addressWidth ∧ cell.value.width = valueWidth) :
    ∃ map, I.HoldsCells addressWidth valueWidth default cells map := by
  induction cells with
  | nil =>
      rcases defaultReads.denotes defaultWidth with ⟨d, denotes⟩
      exact ⟨_, .nil denotes⟩
  | cons cell older ih =>
      have parts := readsAll_append.mp reads
      have operands := readsAll_append.mp parts.1
      have widths := uniform cell List.mem_cons_self
      rcases operands.1.denotes widths.1 with ⟨p, addressDenotes⟩
      rcases operands.2.denotes widths.2 with ⟨v, valueDenotes⟩
      rcases ih parts.2 (fun other member => uniform other (List.mem_cons_of_mem _ member)) with
        ⟨map, holds⟩
      exact ⟨_, .cons addressDenotes valueDenotes holds⟩

theorem ReadsAll.holds {memory : Memory} (reads : I.ReadsAll memory.bits)
    (uniform : memory.Uniform addressWidth valueWidth) :
    ∃ map, I.Holds addressWidth valueWidth memory map := by
  cases memory with
  | dense memory =>
      have parts := readsAll_append.mp reads
      exact parts.1.holdsCells uniform.1 parts.2 uniform.2
  | array term => exact ReadsAll.holdsTerm reads uniform

end Interpretation

namespace Interpretation

theorem denotes_place (I : Interpretation) (place : UInt32) :
    I.Denotes addressBits (.constant place.toNat addressBits) place.toNat :=
  denotes_constant_of_lt place.toNat_lt

/-- The entries of a map that a memory holds are values of the memory. -/
theorem Holds.entry_lt {I : Interpretation} {memory : Memory} {map : Nat -> Nat}
    (holds : I.Holds addressBits wordBits memory map) (place : UInt32) :
    map place.toNat < 2 ^ wordBits := by
  rcases holds.read (I.denotes_place place) {} with ⟨value, _, denotes⟩
  exact denotes.lt

end Interpretation

/-- A well-formed machine represents a processor under every interpretation that reads all
of its bits. -/
theorem Machine.WellFormed.represents {I : Interpretation} (wellFormed : machine.WellFormed)
    (reads : I.ReadsAll machine.bits) :
    ∃ processor, I.Represents machine.memory.strategy machine processor := by
  have parts := Interpretation.readsAll_append.mp reads
  have registers := Interpretation.readsAll_append.mp parts.2
  have words := Interpretation.readsAll_append.mp registers.1
  rcases parts.1.holds wellFormed.memory with ⟨map, holds⟩
  rcases words.1.denotes (wellFormed.register .x) with ⟨x, xDenotes⟩
  rcases words.2.denotes (wellFormed.register .a) with ⟨a, aDenotes⟩
  rcases registers.2 machine.carry (by simp) with ⟨carry, carryReads⟩
  rcases registers.2 machine.zero (by simp) with ⟨zero, zeroReads⟩
  refine ⟨⟨fun place => .ofNat (map place.toNat), .ofNat x, .ofNat a, carry, zero⟩, rfl,
    ⟨map, holds, ?_⟩, ?_, ?_⟩
  · intro place
    exact (UInt8.toNat_ofNat_of_lt' (holds.entry_lt place)).symm
  · intro register
    cases register with
    | x => exact xDenotes.toUInt8
    | a => exact aDenotes.toUInt8
  · intro flag
    cases flag with
    | carry => exact carryReads
    | zero => exact zeroReads

/-- A well-formed machine represents a processor under every assignment of its variables. -/
theorem Machine.WellFormed.exists_processor (wellFormed : machine.WellFormed)
    (covers : assignment.Covers machine.support) :
    ∃ processor, (Interpretation.ofAssignment assignment).Represents machine.memory.strategy
      machine processor := by
  rw [machine.support_eq] at covers
  exact wellFormed.represents (Interpretation.readsAll_of_covers covers)

theorem Interpretation.Represents.evaluates {strategy : Strategy} {processor : Processor}
    (represents : (ofAssignment assignment).Represents strategy machine processor) :
    machine.Evaluates assignment processor := by
  constructor
  · intro register
    exact (represents.register register).evaluate_word
  · intro flag
    exact (represents.flag flag).evaluate
  · intro address place hasWidth evaluated
    have narrow : address.width ≤ Word.knownBits := by
      rw [hasWidth]
      decide
    have denotes := (evaluateWord_eq_some_iff narrow).mp evaluated
    rw [hasWidth] at denotes
    apply (represents.read denotes).mono
    intro value valueDenotes
    exact valueDenotes.evaluate_word

/-- What a way to find the values of bits and words finds in a machine. -/
structure Machine.FoundBy (bitValue : Bit -> Option Bool) (wordValue : Word -> Option Nat)
    (machine : Machine) (processor : Processor) : Prop where
  register : ∀ register,
    wordValue (machine.register register) = some (processor.register register).toNat
  flag : ∀ flag, bitValue (machine.flag flag) = some (processor.flag flag)
  read : ∀ place : UInt32, Succeeds (machine.read (.constant place.toNat addressBits)) fun value =>
    wordValue value = some (processor.memory place).toNat

/-- What is found in a machine leaves no choice of the processor. -/
theorem Machine.FoundBy.unique {bitValue : Bit -> Option Bool} {wordValue : Word -> Option Nat}
    {first second : Processor} (firstFound : machine.FoundBy bitValue wordValue first)
    (secondFound : machine.FoundBy bitValue wordValue second) : first = second := by
  apply Processor.eq_of_parts
  · intro register
    apply UInt8.toNat_inj.mp
    apply Option.some.inj
    rw [← firstFound.register, ← secondFound.register]
  · intro flag
    apply Option.some.inj
    rw [← firstFound.flag, ← secondFound.flag]
  · intro place
    rcases firstFound.read place {} with ⟨value, found, firstValue⟩
    rcases secondFound.read place {} with ⟨other, foundAgain, secondValue⟩
    cases found.symm.trans foundAgain
    apply UInt8.toNat_inj.mp
    apply Option.some.inj
    rw [← firstValue, ← secondValue]

theorem Machine.Evaluates.foundBy {processor : Processor}
    (evaluates : machine.Evaluates assignment processor) :
    machine.FoundBy assignment.evaluate assignment.evaluateWord processor := by
  refine ⟨evaluates.register, evaluates.flag, ?_⟩
  intro place
  have probe := Interpretation.denotes_place (.ofAssignment assignment) place
  exact evaluates.read _ place probe.width_eq probe.evaluate_address

theorem Program.Addressed.locates {program : Program} (addressed : program.Addressed)
    (covers : assignment.Covers program.support) :
    (Interpretation.ofAssignment assignment).Locates program assignment.locate := by
  intro instruction member address names
  have hasWidth := addressed instruction member address names
  have occurs := Assignment.covers_flatMap.mp covers instruction member
  rw [names, Option.map_some, Option.getD_some] at occurs
  have denotes := Interpretation.denotes_of_covers hasWidth occurs
  rw [Assignment.locate, denotes.evaluate_address, Option.getD_some]
  exact denotes.toUInt32

/-! ## Runs -/

/-- A program that runs to an end on a machine does what the processor does under every
assignment.  The processor to which the machine evaluates runs to a halt, the predicate of
the result holds, and the machine of the result evaluates to the processor that halted. -/
theorem Program.run_follows_processor (program : Program) (machine : Machine) (limit : Nat)
    (addressed : program.Addressed) (wellFormed : machine.WellFormed) (assignment : Assignment)
    (covers : assignment.Covers (machine.support ++ program.support)) :
    Yields (program.run machine limit) fun execution =>
      (∃ start, machine.Evaluates assignment start) ∧
      ∀ start, machine.Evaluates assignment start ->
        ∃ visited final, Runs program assignment.locate (.running 0) start visited final ∧
          assignment.evaluate execution.predicate = some true ∧
          execution.machine.Evaluates assignment final := by
  have parts := Assignment.covers_append.mp covers
  rcases wellFormed.exists_processor parts.1 with ⟨processor, represents⟩
  apply (represents.run (addressed.locates parts.2) limit).mono
  rintro execution ⟨visited, final, runs, predicateReads, halted⟩
  refine ⟨⟨processor, represents.evaluates⟩, ?_⟩
  intro start evaluates
  rw [evaluates.foundBy.unique represents.evaluates.foundBy]
  refine ⟨visited, final, runs, ?_, halted.evaluates⟩
  rw [Assignment.evaluate_eq]
  exact predicateReads

/-- An address of which one bit is open. -/
def Word.halfOpenAddress : Word :=
  ⟨.var 1 :: List.replicate 31 .zero⟩

/-- Rotate a word in memory unless the carry flag is clear. -/
def Program.rotateIfSet : Program where
  instructions := [.branchIfClear .carry 2, .rotateMemory .halfOpenAddress, .halt]
  labels := .empty
  branches_inside := target_lt_of_strayBranch?_eq_none
    (show strayBranch? 3 0 [.branchIfClear .carry 2, .rotateMemory .halfOpenAddress, .halt] = none
      from rfl)

/-- A machine whose carry flag is open. -/
def Machine.openCarry : Machine where
  memory := .dense ⟨.constant 6 8, [⟨.constant 1 32, .constant 129 8⟩]⟩
  x := .zero 8
  a := .zero 8
  carry := .var 0
  zero := .zero

theorem Machine.openCarry_wellFormed : openCarry.WellFormed := by
  constructor
  · intro register
    cases register <;> rfl
  · constructor
    · rfl
    · intro cell member
      cases List.mem_singleton.mp member
      exact ⟨rfl, rfl⟩

/-- Both sides of the branch are executed and joined at the halt, and both the branch and
the cell that is rotated depend on the assignment. -/
theorem Program.run_follows_processor_rotateIfSet :
    let assignment : Assignment := .ofList [(0, true), (1, true)]
    rotateIfSet.Addressed ∧ Machine.openCarry.WellFormed ∧
    assignment.Covers (Machine.openCarry.support ++ rotateIfSet.support) ∧
    ∃ execution, ((rotateIfSet.run .openCarry 3).run.run.run {}).1 = .ok (.ok execution) ∧
      (∃ start, Machine.openCarry.Evaluates assignment start) ∧
      ∀ start, Machine.openCarry.Evaluates assignment start ->
        ∃ visited final, Runs rotateIfSet assignment.locate (.running 0) start visited final ∧
          assignment.evaluate execution.predicate = some true ∧
          execution.machine.Evaluates assignment final := by
  intro assignment
  have addressed : rotateIfSet.Addressed := by
    intro instruction member address names
    simp only [rotateIfSet, List.mem_cons, List.not_mem_nil, or_false] at member
    rcases member with rfl | rfl | rfl
    · cases names
    · cases names
      rfl
    · cases names
  have wellFormed := Machine.openCarry_wellFormed
  have covers : assignment.Covers (Machine.openCarry.support ++ rotateIfSet.support) := by
    decide
  have completes : (((rotateIfSet.run .openCarry 3).run.run.run {}).1.toOption.bind
      Except.toOption).isSome = true := by
    decide +kernel
  have sound := run_follows_processor rotateIfSet .openCarry 3 addressed wellFormed assignment
    covers {}
  rcases sound with ⟨outcome, ended, followed⟩
  rw [ended] at completes ⊢
  cases outcome with
  | error cause => cases completes
  | ok execution =>
      exact ⟨addressed, wellFormed, covers, execution, rfl, followed execution rfl⟩

end SymbolicMachine
