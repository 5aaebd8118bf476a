import SymbolicMachine.Proofs.Simplification
import SymbolicMachine.Proofs.WellFormedMachines

namespace SymbolicMachine

/-!
# Merging a machine with itself

A merge chooses between two machines, and between a machine and itself there is nothing to
choose.  Registers and flags are returned as they are, and so is a recorded array.  Dense
memory is different.  For each written address it reads both sides, and where other written
addresses may coincide with this one, the two reads are two circuits of which neither is
recognised in the other.  So a choice is placed, and the merged memory depends on the
condition in form although it does not in substance.

This shows where the condition has no value.  What is read from the merged machine may then
have none either, while the same address of the machine before has one.  Nothing worse can
happen.  No assignment, however few variables it gives a value, makes the two reads evaluate to
different numbers.  Where the condition and the addresses have values, the reads agree bit by
bit, even in bits that have none, and where all variables have one, both reads have one too.
A memory in which every cell reads back as itself is not changed at all.
-/

variable {assignment : Assignment}

/-! ## Choices by a condition that has a value -/

namespace Word

/-- What the bits of a word are read as, bits without a value included. -/
def readings (assignment : Assignment) (word : Word) : List (Option Bool) :=
  word.bits.map (Bit.eval? assignment)

theorem width_eq_of_readings {first second : Word}
    (same : first.readings assignment = second.readings assignment) :
    first.width = second.width := by
  have lengths := congrArg List.length same
  rwa [readings, readings, List.length_map, List.length_map] at lengths

theorem gives_readings_combine {condition : Bit} {c : Bool}
    (conditionReads : condition.eval? assignment = some c) (pairs : List (Bit × Bit)) :
    Gives (combine condition.select pairs) fun bits =>
      bits.map (Bit.eval? assignment) =
        pairs.map fun pair => if c then pair.1.eval? assignment else pair.2.eval? assignment := by
  induction pairs with
  | nil => exact .pure rfl
  | cons pair rest ih =>
      rw [combine, List.mapM_cons]
      refine (Bit.gives_eval?_select conditionReads pair.1 pair.2).bind fun bit head => ?_
      refine ih.bind fun bits tail => .pure ?_
      rw [List.map_cons, List.map_cons, head, tail]

theorem succeeds_readings_select {condition : Bit} {c : Bool} {whenTrue whenFalse : Word}
    (conditionReads : condition.eval? assignment = some c)
    (sameWidth : whenTrue.width = whenFalse.width) :
    Succeeds (Word.select condition whenTrue whenFalse) fun result =>
      result.readings assignment =
        if c then whenTrue.readings assignment else whenFalse.readings assignment := by
  refine (Interpretation.succeeds_paired sameWidth).bind fun pairs paired => ?_
  subst paired
  refine (Succeeds.lift (gives_readings_combine conditionReads _)).bind fun bits bitsRead => ?_
  refine .pure (bitsRead.trans ?_)
  cases c with
  | true =>
      have firsts := List.map_fst_zip (Nat.le_of_eq sameWidth)
      calc (whenTrue.bits.zip whenFalse.bits).map (fun pair => pair.1.eval? assignment)
          = ((whenTrue.bits.zip whenFalse.bits).map Prod.fst).map (Bit.eval? assignment) :=
            List.map_map.symm
        _ = whenTrue.readings assignment := congrArg _ firsts
  | false =>
      have seconds := List.map_snd_zip (Nat.le_of_eq sameWidth.symm)
      calc (whenTrue.bits.zip whenFalse.bits).map (fun pair => pair.2.eval? assignment)
          = ((whenTrue.bits.zip whenFalse.bits).map Prod.snd).map (Bit.eval? assignment) :=
            List.map_map.symm
        _ = whenFalse.readings assignment := congrArg _ seconds

end Word

/-! ## Cells whose addresses have values -/

/-- The address of a cell has a value, and its word has the width of a value. -/
structure Cell.Located (assignment : Assignment) (addressWidth valueWidth : Nat)
    (cell : Cell) : Prop where
  address : (Interpretation.ofAssignment assignment).Denotes addressWidth cell.address
    (cell.address.value assignment.valuation)
  value : cell.value.width = valueWidth

namespace DenseMemory

variable {valuation : Nat -> Bool} {default : Word} {cells : List Cell} {place : Nat}
variable {addressWidth valueWidth : Nat}

/-- The word in a place: that of the newest cell there, or the default if there is none. -/
def standing (valuation : Nat -> Bool) (default : Word) (place : Nat) : List Cell -> Word
  | [] => default
  | cell :: older =>
      if cell.address.value valuation = place then cell.value
      else standing valuation default place older

theorem standing_eq_default
    (absent : ∀ cell ∈ cells, cell.address.value valuation ≠ place) :
    standing valuation default place cells = default := by
  induction cells with
  | nil => rfl
  | cons cell older ih =>
      rw [List.forall_mem_cons] at absent
      rw [standing, if_neg absent.1, ih absent.2]

theorem width_standing (defaultWidth : default.width = valueWidth)
    (located : ∀ cell ∈ cells, cell.Located assignment addressWidth valueWidth) :
    (standing valuation default place cells).width = valueWidth := by
  induction cells with
  | nil => exact defaultWidth
  | cons cell older ih =>
      rw [List.forall_mem_cons] at located
      unfold standing
      split
      · exact located.1.value
      · exact ih located.2

/-- Reading gives the word in the place that the address denotes, and every bit of it is read
as that word has it. -/
theorem succeeds_readings_readCells {address : Word} (defaultWidth : default.width = valueWidth)
    (located : ∀ cell ∈ cells, cell.Located assignment addressWidth valueWidth)
    (addressDenotes : (Interpretation.ofAssignment assignment).Denotes addressWidth address place) :
    Succeeds (readCells default address cells) fun result =>
      result.readings assignment =
        (standing assignment.valuation default place cells).readings assignment := by
  induction cells with
  | nil => exact .pure rfl
  | cons cell older ih =>
      rw [List.forall_mem_cons] at located
      have cellDenotes := located.1.address
      unfold readCells standing
      split
      · rename_i same
        rw [if_pos (cellDenotes.eq_of_identical same addressDenotes)]
        exact .pure rfl
      · refine (ih located.2).bind fun shadowed shadowedReads => ?_
        refine (addressDenotes.equals cellDenotes).bind fun hit hitReads => ?_
        have sameWidth : cell.value.width = shadowed.width := by
          rw [located.1.value, Word.width_eq_of_readings shadowedReads,
            width_standing defaultWidth located.2]
        refine (Word.succeeds_readings_select hitReads sameWidth).mono fun result resultReads => ?_
        rw [resultReads, shadowedReads]
        by_cases hits : cell.address.value assignment.valuation = place
        · simp [hits]
        · simp [hits, Ne.symm hits]

/-! ## Merging cells with themselves -/

theorem jointAddresses_self (memory : DenseMemory) :
    jointAddresses memory memory = memory.touched := by
  apply foldl_gather_of_known
  intro address member
  exact List.any_eq_true.mpr ⟨address, member, Word.identical_refl address⟩

/-- Two memories have cells for the same addresses, and in each place the bits of the words
there are read alike. -/
structure Alike (first : DenseMemory) (assignment : Assignment) (second : DenseMemory) : Prop where
  addresses : second.cells.map Cell.address = first.cells.map Cell.address
  standing : ∀ place,
    (standing assignment.valuation second.default place second.cells).readings assignment =
      (standing assignment.valuation first.default place first.cells).readings assignment

namespace Alike

theorem refl (assignment : Assignment) (memory : DenseMemory) : memory.Alike assignment memory :=
  ⟨rfl, fun _ => rfl⟩

theorem touched_eq {first second : DenseMemory} (alike : first.Alike assignment second) :
    second.touched = first.touched := by
  rw [touched, touched, List.map_reverse, List.map_reverse, alike.addresses]

end Alike

/-- Copies of cells that each hold what is in their place hold the same as these cells. -/
theorem readings_standing_copies {copies : List Cell} {full : List (Option Bool)}
    (copied : List.Forall₂ (fun cell copy => copy.address = cell.address ∧
        (cell.address.value valuation = place -> copy.value.readings assignment = full))
      cells copies) :
    (standing valuation default place copies).readings assignment = full ∨
      standing valuation default place copies = default ∧
        ∀ cell ∈ cells, cell.address.value valuation ≠ place := by
  induction copied with
  | nil => exact .inr ⟨rfl, by simp⟩
  | @cons cell copy older copies head tail ih =>
      rw [standing, head.1, List.forall_mem_cons]
      by_cases here : cell.address.value valuation = place
      · rw [if_pos here]
        exact .inl (head.2 here)
      · rw [if_neg here]
        rcases ih with same | ⟨same, absent⟩
        · exact .inl same
        · exact .inr ⟨same, here, absent⟩

section
variable {condition : Bit} {c : Bool} {memory : DenseMemory}

/-- The cell that a merge makes for an address holds what is in the place of the address. -/
theorem succeeds_readings_copy {address : Word} (member : address ∈ memory.touched)
    (conditionReads : condition.eval? assignment = some c)
    (defaultWidth : memory.default.width = valueWidth)
    (located : ∀ cell ∈ memory.cells, cell.Located assignment addressWidth valueWidth) :
    Succeeds (do
      let value ← Word.select condition (← memory.read address) (← memory.read address)
      return { address, value : Cell }) fun copy =>
        copy.address = address ∧ copy.value.readings assignment =
          (standing assignment.valuation memory.default (address.value assignment.valuation)
            memory.cells).readings assignment := by
  rcases Interpretation.mem_touched.mp member with ⟨cell, cellMember, rfl⟩
  have read := succeeds_readings_readCells defaultWidth located (located cell cellMember).address
  -- The reads are two circuits that need not be identical, but they are read alike.
  refine read.bind fun first firstReads => ?_
  refine read.bind fun second secondReads => ?_
  have alike := firstReads.trans secondReads.symm
  refine (Word.succeeds_readings_select conditionReads (Word.width_eq_of_readings alike)).bind
    fun value valueReads => .pure ⟨rfl, ?_⟩
  rw [valueReads, ← alike, ite_self, firstReads]

theorem succeeds_merge_self (conditionReads : condition.eval? assignment = some c)
    (defaultWidth : memory.default.width = valueWidth)
    (located : ∀ cell ∈ memory.cells, cell.Located assignment addressWidth valueWidth) :
    Succeeds (merge condition memory memory) fun merged => memory.Alike assignment merged := by
  unfold merge
  rw [jointAddresses_self, Word.select_self]
  refine (Succeeds.mapM fun address member =>
    succeeds_readings_copy member conditionReads defaultWidth located).bind
      fun copies copied => .pure ?_
  rw [touched, List.forall₂_map_left_iff, ← copies.reverse_reverse, List.forall₂_reverse_iff]
    at copied
  refine ⟨?_, ?_⟩
  · rw [← List.forall₂_eq_eq_eq, List.forall₂_map_left_iff, List.forall₂_map_right_iff]
    exact copied.flip.imp fun _ _ holds => holds.1
  · intro place
    have inPlace := copied.imp fun cell copy holds => And.intro holds.1
      fun here : cell.address.value assignment.valuation = place => here ▸ holds.2
    rcases readings_standing_copies inPlace with same | ⟨same, absent⟩
    · exact same
    · rw [same, standing_eq_default absent]

end

/-! ## Memories that are returned as they are -/

/-- Reading the address of any cell gives the word of that cell, and no gate is placed. -/
def Settled (memory : DenseMemory) : Prop :=
  ∀ cell ∈ memory.cells, memory.read cell.address = pure cell.value

theorem merge_self_of_settled {memory : DenseMemory} (settled : memory.Settled)
    (condition : Bit) : merge condition memory memory = pure memory := by
  have cells : (memory.touched.mapM fun address => do
      let value ← Word.select condition (← memory.read address) (← memory.read address)
      return { address, value : Cell }) = pure memory.cells.reverse := by
    rw [touched, List.mapM_map]
    apply mapM_eq_pure
    intro cell member
    have read := settled cell (List.mem_reverse.mp member)
    simp only [Function.comp_apply, read, pure_bind, Word.select_self]
  rw [merge, jointAddresses_self, cells, pure_bind, Word.select_self, pure_bind,
    List.reverse_reverse]

end DenseMemory

/-- Every cell of a dense memory reads back as itself.  Nothing is asked of an array. -/
def Memory.Settled : Memory -> Prop
  | .dense memory => memory.Settled
  | .array _ => True

theorem Memory.merge_self_of_settled {memory : Memory} (settled : memory.Settled)
    (condition : Bit) : Memory.merge condition memory memory = pure memory := by
  cases memory with
  | dense memory =>
      rw [Memory.merge, DenseMemory.merge_self_of_settled settled]
      rfl
  | array term =>
      rw [Memory.merge, ArrayTerm.merge, if_pos rfl]
      rfl

theorem Memory.returns_merge_self (condition : Bit) (memory : Memory) :
    Returns (Memory.merge condition memory memory) fun merged =>
      memory.Settled -> merged = memory := by
  by_cases settled : memory.Settled
  · rw [Memory.merge_self_of_settled settled]
    exact .pure fun _ => rfl
  · apply (Returns.any _).mono
    intro merged _ impossible
    exact absurd impossible settled

/-! ## Machines -/

namespace Machine

variable {machine : Machine} {condition : Bit} {address : Word}

/-- Of a machine that is merged with itself only the memory is built anew, and not even that if
the condition is known. -/
theorem merge_self (condition : Bit) (machine : Machine) :
    Machine.merge condition machine machine =
      if condition.known.isSome then pure machine
      else do
        let memory ← Memory.merge condition machine.memory machine.memory
        return { machine with memory } := by
  unfold Machine.merge
  cases condition.known with
  | some value => cases value <;> rfl
  | none => simp [Word.select_self, Bit.select_self]

/-- Whatever is true of a memory and of what a merge with itself makes of it is true of the
memory of a machine after such a merge, and nothing else changes. -/
theorem returns_merge_self {property : Memory -> Prop} (before : property machine.memory)
    (after : Returns (Memory.merge condition machine.memory machine.memory) property) :
    Returns (Machine.merge condition machine machine) fun merged =>
      merged = { machine with memory := merged.memory } ∧ property merged.memory := by
  rw [merge_self]
  split
  · exact .pure ⟨rfl, before⟩
  · exact after.bind fun memory holds => .pure ⟨rfl, holds⟩

theorem WellFormed.merge_self (wellFormed : machine.WellFormed) (condition : Bit) :
    Succeeds (Machine.merge condition machine machine) fun merged => merged.WellFormed := by
  have shaped : machine.Shaped machine.memory.strategy := ⟨wellFormed, rfl⟩
  exact (shaped.merge condition shaped).mono fun merged mergedShaped => mergedShaped.wellFormed

/-! ## Reading before and after -/

/-- A relation holds between what is read at an address from a machine and what is read there
after a merge of the machine with itself. -/
def ReadsAround (condition : Bit) (machine : Machine) (address : Word)
    (relation : Word -> Word -> Prop) : Prop :=
  Succeeds (Machine.merge condition machine machine) fun merged =>
    Succeeds (machine.read address) fun before =>
      Succeeds (merged.read address) fun after => relation before after

namespace ReadsAround

variable {relation other : Word -> Word -> Prop}

theorem mono (holds : ReadsAround condition machine address relation)
    (implied : ∀ before after, relation before after -> other before after) :
    ReadsAround condition machine address other :=
  Succeeds.mono holds fun _ reads =>
    Succeeds.mono reads fun before readsAgain =>
      Succeeds.mono readsAgain fun after => implied before after

theorem and (first : ReadsAround condition machine address relation)
    (second : ReadsAround condition machine address other) :
    ReadsAround condition machine address fun before after =>
      relation before after ∧ other before after := by
  refine (Succeeds.and_returns first second.returns).mono ?_
  intro merged reads
  rcases reads with ⟨firstReads, secondReads⟩
  refine (firstReads.and_returns secondReads.returns).mono ?_
  intro before readsAgain
  rcases readsAgain with ⟨firstAgain, secondAgain⟩
  exact firstAgain.and_returns secondAgain.returns

theorem all {ι : Type} [Nonempty ι] {family : ι -> Word -> Word -> Prop}
    (each : ∀ index, ReadsAround condition machine address (family index)) :
    ReadsAround condition machine address fun before after =>
      ∀ index, family index before after := by
  refine (Succeeds.all each).mono ?_
  intro merged reads
  refine (Succeeds.all reads).mono ?_
  intro before readsAgain
  exact Succeeds.all readsAgain

/-- A relation that is asked for on a condition only holds of reads that succeed anyway. -/
theorem imp {circumstance : Prop} (anyway : ReadsAround condition machine address relation)
    (holds : circumstance -> ReadsAround condition machine address other) :
    ReadsAround condition machine address fun before after =>
      circumstance -> other before after := by
  by_cases given : circumstance
  · exact (holds given).mono fun _ _ related _ => related
  · exact anyway.mono fun _ _ _ impossible => absurd impossible given

end ReadsAround

/-- Under an interpretation that reads all that is involved, both reads denote one number. -/
theorem readsAround_denotes {I : Interpretation} (wellFormed : machine.WellFormed)
    (hasWidth : address.width = addressBits) (reads : I.ReadsAll machine.bits)
    (addressReads : I.ReadsAll address.bits) {c : Bool} (conditionReads : I.Reads condition c) :
    ReadsAround condition machine address fun before after =>
      ∃ number, I.Denotes wordBits before number ∧ I.Denotes wordBits after number := by
  rcases wellFormed.represents reads with ⟨processor, represents⟩
  rcases addressReads.denotes hasWidth with ⟨place, denotes⟩
  apply (represents.merge conditionReads represents).mono
  intro merged mergedRepresents
  rw [ite_self] at mergedRepresents
  apply (represents.read denotes.toUInt32).mono
  intro before beforeDenotes
  apply (mergedRepresents.read denotes.toUInt32).mono
  intro after afterDenotes
  exact ⟨_, beforeDenotes, afterDenotes⟩

theorem readsAround_value (wellFormed : machine.WellFormed) (hasWidth : address.width = addressBits)
    (condition : Bit) (valuation : Nat -> Bool) :
    ReadsAround condition machine address fun before after =>
      before.width = wordBits ∧ after.width = wordBits ∧
        after.value valuation = before.value valuation := by
  have readsAll : ∀ bits, (Interpretation.ofValuation valuation).ReadsAll bits :=
    fun _ bit _ => ⟨bit.eval valuation, rfl⟩
  have conditionReads : (Interpretation.ofValuation valuation).Reads condition
      (condition.eval valuation) := rfl
  apply (readsAround_denotes wellFormed hasWidth (readsAll _) (readsAll _) conditionReads).mono
  intro before after same
  rcases same with ⟨number, beforeDenotes, afterDenotes⟩
  have beforeValue := Interpretation.denotes_value valuation before
  have afterValue := Interpretation.denotes_value valuation after
  rw [beforeDenotes.width_eq] at beforeValue
  rw [afterDenotes.width_eq] at afterValue
  refine ⟨beforeDenotes.width_eq, afterDenotes.width_eq, ?_⟩
  rw [beforeValue.unique beforeDenotes, afterValue.unique afterDenotes]

/-- No assignment makes the two reads evaluate to different numbers. -/
theorem readsAround_agree (wellFormed : machine.WellFormed) (hasWidth : address.width = addressBits)
    (condition : Bit) (assignment : Assignment) :
    ReadsAround condition machine address fun before after => ∀ number other,
      assignment.evaluateWord before = some number ->
      assignment.evaluateWord after = some other -> other = number := by
  apply (readsAround_value wellFormed hasWidth condition assignment.valuation).mono
  intro before after valued number other beforeFound afterFound
  rcases valued with ⟨beforeWidth, afterWidth, sameValue⟩
  have narrow : wordBits ≤ Word.knownBits := by
    decide
  rw [Interpretation.evaluateWord_eq_some_iff (beforeWidth ▸ narrow)] at beforeFound
  rw [Interpretation.evaluateWord_eq_some_iff (afterWidth ▸ narrow)] at afterFound
  have extension := assignment.extends_valuation
  rw [beforeFound.eq_value extension, afterFound.eq_value extension, sameValue]

theorem readsAround_covered (wellFormed : machine.WellFormed)
    (hasWidth : address.width = addressBits)
    (covers : assignment.Covers (machine.support ++ address.support ++ condition.support)) :
    ReadsAround condition machine address fun before after =>
      ∃ number, assignment.evaluateWord before = some number ∧
        assignment.evaluateWord after = some number := by
  rw [Assignment.covers_append, Assignment.covers_append, machine.support_eq] at covers
  rcases covers with ⟨⟨machineCovered, addressCovered⟩, conditionCovered⟩
  apply (readsAround_denotes wellFormed hasWidth
    (Interpretation.readsAll_of_covers machineCovered)
    (Interpretation.readsAll_of_covers addressCovered)
    (Interpretation.reads_of_covers conditionCovered)).mono
  intro before after same
  rcases same with ⟨number, beforeDenotes, afterDenotes⟩
  exact ⟨number, beforeDenotes.evaluate_word, afterDenotes.evaluate_word⟩

end Machine

/-- A condition and words each have a value. -/
def Assignment.Decides (assignment : Assignment) (condition : Bit) (words : List Word) : Prop :=
  (assignment.evaluate condition).isSome = true ∧
    ∀ word ∈ words, (assignment.evaluateWord word).isSome = true

theorem Interpretation.denotes_of_isSome {word : Word} (hasWidth : word.width = addressBits)
    (decided : (assignment.evaluateWord word).isSome = true) :
    (ofAssignment assignment).Denotes addressBits word
      (word.value assignment.valuation) := by
  rcases Option.isSome_iff_exists.mp decided with ⟨number, found⟩
  have narrow : word.width ≤ Word.knownBits := by
    rw [hasWidth]
    decide
  have denotes := (evaluateWord_eq_some_iff narrow).mp found
  rw [hasWidth] at denotes
  rwa [← denotes.eq_value assignment.extends_valuation]

namespace Machine

variable {machine : Machine} {condition : Bit} {address : Word} {memory : DenseMemory}

theorem located_of_decided (wellFormed : machine.WellFormed)
    (dense : machine.memory = .dense memory)
    (decided : ∀ word ∈ memory.touched, (assignment.evaluateWord word).isSome = true) :
    memory.default.width = wordBits ∧
      ∀ cell ∈ memory.cells, cell.Located assignment addressBits wordBits := by
  have uniform := wellFormed.memory
  rw [dense] at uniform
  refine ⟨uniform.1, ?_⟩
  intro cell member
  rcases uniform.2 cell member with ⟨addressWidth, valueWidth⟩
  have touched := Interpretation.mem_touched.mpr ⟨cell, member, rfl⟩
  exact ⟨Interpretation.denotes_of_isSome addressWidth (decided cell.address touched), valueWidth⟩

/-- Where the addresses have values, reading gives what is in the place, bit by bit. -/
theorem succeeds_readings_read (wellFormed : machine.WellFormed)
    (dense : machine.memory = .dense memory) (hasWidth : address.width = addressBits)
    (addressDecided : (assignment.evaluateWord address).isSome = true)
    (decided : ∀ word ∈ memory.touched, (assignment.evaluateWord word).isSome = true) :
    Succeeds (machine.read address) fun result =>
      result.readings assignment = (DenseMemory.standing assignment.valuation memory.default
        (address.value assignment.valuation) memory.cells).readings assignment := by
  have denotes := Interpretation.denotes_of_isSome hasWidth addressDecided
  rcases located_of_decided wellFormed dense decided with ⟨defaultWidth, located⟩
  apply denotes.requireAddress.bind
  intro _ _
  rw [dense]
  exact DenseMemory.succeeds_readings_readCells defaultWidth located denotes

/-- Where the condition and the addresses have values, both reads have the same bits. -/
theorem readsAround_alike (wellFormed : machine.WellFormed)
    (dense : machine.memory = .dense memory) (hasWidth : address.width = addressBits)
    (decides : assignment.Decides condition (address :: memory.touched)) :
    ReadsAround condition machine address fun before after =>
      after.readings assignment = before.readings assignment := by
  rcases decides with ⟨conditionDecided, wordsDecided⟩
  rw [List.forall_mem_cons] at wordsDecided
  rcases wordsDecided with ⟨addressDecided, decided⟩
  rcases Option.isSome_iff_exists.mp conditionDecided with ⟨c, conditionReads⟩
  rw [Assignment.evaluate_eq] at conditionReads
  have mergesAlike : Returns (Memory.merge condition machine.memory machine.memory)
      fun merged => ∃ other, merged = .dense other ∧ memory.Alike assignment other := by
    rcases located_of_decided wellFormed dense decided with ⟨defaultWidth, located⟩
    rw [dense]
    apply (DenseMemory.succeeds_merge_self conditionReads defaultWidth located).returns.bind
    intro other alike
    exact .pure ⟨other, rfl, alike⟩
  apply ((wellFormed.merge_self condition).and_returns
    (returns_merge_self ⟨memory, dense, .refl assignment memory⟩ mergesAlike)).mono
  intro merged kept
  rcases kept with ⟨mergedWellFormed, _, other, otherDense, alike⟩
  apply (succeeds_readings_read wellFormed dense hasWidth addressDecided decided).mono
  intro before beforeReads
  rw [← alike.touched_eq] at decided
  apply (succeeds_readings_read mergedWellFormed otherDense hasWidth addressDecided decided).mono
  intro after afterReads
  exact afterReads.trans ((alike.standing _).trans beforeReads.symm)

/-- Merging a machine with itself leaves registers and flags as they are, and the memory too
unless a cell of it does not read back as itself.  What is then read at an address evaluates to
the number to which it evaluated before, or has no value.  It does have one under an assignment
of all variables, and it has every bit as before where the condition and the addresses have
values. -/
theorem merge_with_itself (wellFormed : machine.WellFormed) (condition : Bit) :
    (Succeeds (Machine.merge condition machine machine) fun merged =>
      (∀ register, merged.register register = machine.register register) ∧
      (∀ flag, merged.flag flag = machine.flag flag) ∧
      (machine.memory.Settled -> merged = machine)) ∧
    ∀ address : Word, address.width = addressBits ->
      ReadsAround condition machine address fun before after => ∀ assignment : Assignment,
        (∀ number other, assignment.evaluateWord before = some number ->
          assignment.evaluateWord after = some other -> other = number) ∧
        (assignment.Covers (machine.support ++ address.support ++ condition.support) ->
          ∃ number, assignment.evaluateWord before = some number ∧
            assignment.evaluateWord after = some number) ∧
        ((∃ memory, machine.memory = .dense memory ∧
            assignment.Decides condition (address :: memory.touched)) ->
          after.bits.map assignment.evaluate = before.bits.map assignment.evaluate) := by
  refine ⟨?_, ?_⟩
  · apply ((wellFormed.merge_self condition).and_returns
      (returns_merge_self (fun _ => rfl) (machine.memory.returns_merge_self condition))).mono
    intro merged kept
    rcases kept with ⟨_, onlyMemory, settledSame⟩
    rw [onlyMemory]
    refine ⟨?_, ?_, ?_⟩
    · intro register
      cases register <;> rfl
    · intro flag
      cases flag <;> rfl
    · intro settled
      rw [settledSame settled]
  · intro address hasWidth
    apply ReadsAround.all
    intro assignment
    have agree := readsAround_agree wellFormed hasWidth condition assignment
    refine agree.and ((agree.imp ?_).and (agree.imp ?_))
    · intro covers
      exact readsAround_covered wellFormed hasWidth covers
    · intro decided
      rcases decided with ⟨memory, dense, decides⟩
      have sameReading : assignment.evaluate = Bit.eval? assignment :=
        funext assignment.evaluate_eq
      rw [sameReading]
      exact readsAround_alike wellFormed dense hasWidth decides

end Machine

/-- An address of which only the lowest bit is open. -/
def Word.lowestOpen (id : Nat) : Word :=
  ⟨.var id :: List.replicate 31 .zero⟩

namespace Machine

/-- A machine with two cells of which nobody knows whether they are one. -/
def twoCells : Machine where
  memory := .dense ⟨.zero 8, [⟨.lowestOpen 1, .constant 2 8⟩, ⟨.lowestOpen 0, .constant 1 8⟩]⟩
  x := .zero 8
  a := .zero 8
  carry := .zero
  zero := .zero

theorem twoCells_wellFormed : twoCells.WellFormed := by
  constructor
  · intro register
    cases register <;> rfl
  · constructor
    · rfl
    · intro cell member
      simp only [List.mem_cons, List.not_mem_nil, or_false] at member
      rcases member with rfl | rfl
      · exact ⟨rfl, rfl⟩
      · exact ⟨rfl, rfl⟩

/-- Two cells that may be one, under an assignment of all variables, and a single cell, which a
merge does not touch. -/
theorem merge_with_itself_examples :
    let assignment : Assignment := .ofList [(0, false), (1, true), (2, true)]
    twoCells.WellFormed ∧
    assignment.Covers (twoCells.support ++ (Word.lowestOpen 0).support ++ (Bit.var 2).support) ∧
    (ReadsAround (.var 2) twoCells (.lowestOpen 0) fun before after =>
      ∃ number, assignment.evaluateWord before = some number ∧
        assignment.evaluateWord after = some number) ∧
    openCarry.WellFormed ∧ openCarry.memory.Settled ∧
    Succeeds (Machine.merge (.var 2) openCarry openCarry) fun merged => merged = openCarry := by
  intro assignment
  have covers : assignment.Covers
      (twoCells.support ++ (Word.lowestOpen 0).support ++ (Bit.var 2).support) := by
    decide
  have settled : openCarry.memory.Settled := by
    intro cell member
    cases List.mem_singleton.mp member
    rfl
  refine ⟨twoCells_wellFormed, covers, ?_, openCarry_wellFormed, settled, ?_⟩
  · apply ((merge_with_itself twoCells_wellFormed (.var 2)).2 (.lowestOpen 0) rfl).mono
    intro before after compare
    exact (compare assignment).2.1 covers
  · apply (merge_with_itself openCarry_wellFormed (.var 2)).1.mono
    intro merged kept
    rcases kept with ⟨_, _, unchanged⟩
    exact unchanged settled

/-- A merge can cost a value.  The two addresses are known to differ, so the cell of the first one
is known to be read, and its word is a constant.  After the merge the condition has to be known
as well. -/
theorem merge_with_itself_costs_value :
    let assignment : Assignment := .ofList [(0, false), (1, true)]
    let reads : Checked (Word × Word) := do
      let merged ← Machine.merge (.var 2) twoCells twoCells
      let before ← twoCells.read (.lowestOpen 0)
      let after ← merged.read (.lowestOpen 0)
      return (before, after)
    twoCells.WellFormed ∧ (Bit.var 2).known = none ∧ (Word.lowestOpen 0).width = addressBits ∧
    ∃ before after, (reads.run.run {}).1 = .ok (before, after) ∧
      assignment.evaluateWord before = some 1 ∧ assignment.evaluateWord after = none := by
  intro assignment reads
  have found : ((reads.run.run {}).1.toOption.any fun words =>
      words.1.eval? assignment == some 1 && words.2.eval? assignment == none) = true := by
    decide +kernel
  refine ⟨twoCells_wellFormed, rfl, rfl, ?_⟩
  cases ended : (reads.run.run {}).1 with
  | error misuse =>
      rw [ended] at found
      cases found
  | ok words =>
      rw [ended] at found
      have both := Bool.and_eq_true_iff.mp found
      refine ⟨words.1, words.2, rfl, ?_, ?_⟩
      · rw [Assignment.evaluateWord_eq]
        exact eq_of_beq both.1
      · rw [Assignment.evaluateWord_eq]
        exact eq_of_beq both.2

end Machine
end SymbolicMachine
