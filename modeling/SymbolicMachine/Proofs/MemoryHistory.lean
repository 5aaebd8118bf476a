import Mathlib.Data.Fin.Tuple.Basic
import SymbolicMachine.Proofs.MemoryMap

namespace SymbolicMachine

/-!
# Histories of memory operations

A history is a sequence of resets, writes and merges.  Every operation adds a memory
and may refer to any memories added before it, so parts are shared freely and a memory
may be merged with itself or with its own past.  A history is carried out with one
strategy, and it describes one map for each memory on paper.

Reading any of the memories gives the entry of its map, with either strategy and for
all addresses, whether or not they coincide under the assignment in question.
-/

/-- Operations on memories, in order, with the number of memories that they add. -/
inductive History : Nat -> Type where
  | start : History 0
  | reset {count : Nat} (earlier : History count) (default : Word) : History (count + 1)
  | write {count : Nat} (earlier : History count) (source : Fin count) (address value : Word) :
      History (count + 1)
  | merge {count : Nat} (earlier : History count) (condition : Bit)
      (whenTrue whenFalse : Fin count) : History (count + 1)

namespace History

/-- Carry out a history with a strategy. -/
def build (strategy : Strategy) {count : Nat} : History count -> Checked (Fin count -> Memory)
  | .start => return fun index => index.elim0
  | .reset earlier default => do
      let memories ← earlier.build strategy
      let memory ← Memory.reset strategy default
      return Fin.snoc (α := fun _ => Memory) memories memory
  | .write earlier source address value => do
      let memories ← earlier.build strategy
      let memory ← (memories source).write address value
      return Fin.snoc (α := fun _ => Memory) memories memory
  | .merge earlier condition whenTrue whenFalse => do
      let memories ← earlier.build strategy
      let memory ← Memory.merge condition (memories whenTrue) (memories whenFalse)
      return Fin.snoc (α := fun _ => Memory) memories memory

/-- The maps that a history describes under a valuation. -/
def maps (valuation : Nat -> Bool) {count : Nat} : History count -> Fin count -> Nat -> Nat
  | .start => fun index => index.elim0
  | .reset earlier default =>
      Fin.snoc (α := fun _ => Nat -> Nat) (earlier.maps valuation) fun _ => default.value valuation
  | .write earlier source address value =>
      Fin.snoc (α := fun _ => Nat -> Nat) (earlier.maps valuation)
        (Function.update (earlier.maps valuation source) (address.value valuation)
          (value.value valuation))
  | .merge earlier condition whenTrue whenFalse =>
      Fin.snoc (α := fun _ => Nat -> Nat) (earlier.maps valuation) fun place =>
        if condition.eval valuation then earlier.maps valuation whenTrue place
        else earlier.maps valuation whenFalse place

/-- All addresses have one width and all values have one width. -/
def Uniform (addressWidth valueWidth : Nat) {count : Nat} : History count -> Prop
  | .start => True
  | .reset earlier default => earlier.Uniform addressWidth valueWidth ∧ default.width = valueWidth
  | .write earlier _ address value =>
      earlier.Uniform addressWidth valueWidth ∧ address.width = addressWidth ∧
        value.width = valueWidth
  | .merge earlier _ _ _ => earlier.Uniform addressWidth valueWidth

/-- The variables that occur in the operands of a history. -/
def support {count : Nat} : History count -> List Nat
  | .start => []
  | .reset earlier default => earlier.support ++ default.support
  | .write earlier _ address value =>
      earlier.support ++ (address.support ++ value.support)
  | .merge earlier condition _ _ => earlier.support ++ condition.support

variable {assignment : Assignment} {addressWidth valueWidth : Nat}

/-- The memories that a strategy has built hold the maps that a history describes. -/
def Realised (assignment : Assignment) (addressWidth valueWidth : Nat) (strategy : Strategy)
    {count : Nat} (memories : Fin count -> Memory) (maps : Fin count -> Nat -> Nat) : Prop :=
  ∀ index, (memories index).strategy = strategy ∧
    (Interpretation.ofAssignment assignment).Holds addressWidth valueWidth (memories index)
      (maps index)

theorem Realised.snoc {strategy : Strategy} {count : Nat} {memories : Fin count -> Memory}
    {maps : Fin count -> Nat -> Nat} {memory : Memory} {map : Nat -> Nat}
    (before : Realised assignment addressWidth valueWidth strategy memories maps)
    (added : memory.strategy = strategy ∧
      (Interpretation.ofAssignment assignment).Holds addressWidth valueWidth memory map) :
    Realised assignment addressWidth valueWidth strategy
      (Fin.snoc (α := fun _ => Memory) memories memory)
      (Fin.snoc (α := fun _ => Nat -> Nat) maps map) := by
  intro index
  induction index using Fin.lastCases with
  | last =>
      rw [Fin.snoc_last, Fin.snoc_last]
      exact added
  | cast old =>
      rw [Fin.snoc_castSucc, Fin.snoc_castSucc]
      exact before old

theorem build_realised (strategy : Strategy) {count : Nat} (history : History count)
    (uniform : history.Uniform addressWidth valueWidth)
    (covers : assignment.Covers history.support) :
    Succeeds (history.build strategy) fun memories =>
      Realised assignment addressWidth valueWidth strategy memories
        (history.maps assignment.valuation) := by
  induction history with
  | start => exact .pure fun index => index.elim0
  | reset earlier default ih =>
      have parts := Assignment.covers_append.mp covers
      have denotes := Interpretation.denotes_of_covers uniform.2 parts.2
      refine (ih uniform.1 parts.1).bind fun memories before => ?_
      have resetHolds := Interpretation.holds_reset addressWidth strategy denotes
      exact (Succeeds.lift resetHolds).bind fun memory added => .pure (before.snoc added)
  | write earlier source address value ih =>
      have parts := Assignment.covers_append.mp covers
      have operands := Assignment.covers_append.mp parts.2
      have addressDenotes := Interpretation.denotes_of_covers uniform.2.1 operands.1
      have valueDenotes := Interpretation.denotes_of_covers uniform.2.2 operands.2
      refine (ih uniform.1 parts.1).bind fun memories before => ?_
      refine (Succeeds.lift ((before source).2.write addressDenotes valueDenotes)).bind
        fun memory added => .pure ?_
      rw [(before source).1] at added
      exact before.snoc added
  | merge earlier condition whenTrue whenFalse ih =>
      have parts := Assignment.covers_append.mp covers
      have conditionReads := Interpretation.reads_of_covers parts.2
      refine (ih uniform parts.1).bind fun memories before => ?_
      have sameStrategy := (before whenTrue).1.trans (before whenFalse).1.symm
      refine (Interpretation.Holds.merge conditionReads sameStrategy (before whenTrue).2
        (before whenFalse).2).bind fun memory added => .pure ?_
      rw [(before whenTrue).1] at added
      exact before.snoc added

theorem read_finds (strategy : Strategy) {count : Nat} (history : History count)
    (uniform : history.Uniform addressWidth valueWidth)
    (covers : assignment.Covers history.support) {probe : Word}
    (probeWidth : probe.width = addressWidth) (probeCovers : assignment.Covers probe.support)
    (index : Fin count) :
    Succeeds (history.build strategy) fun memories =>
      Succeeds ((memories index).read probe) fun value =>
        assignment.Finds valueWidth value
          (history.maps assignment.valuation index (probe.value assignment.valuation)) := by
  have probeDenotes := Interpretation.denotes_of_covers probeWidth probeCovers
  refine (history.build_realised strategy uniform covers).mono fun memories realised => ?_
  exact ((realised index).2.read probeDenotes).mono fun value denotes => denotes.finds

/-- Every memory of a history reads as its map, at every address and with either
strategy.  The two strategies therefore give the same answers after the same
operations. -/
theorem memory_reads_as_map {count : Nat} (history : History count)
    (uniform : history.Uniform addressWidth valueWidth)
    (covers : assignment.Covers history.support) (probe : Word)
    (probeWidth : probe.width = addressWidth) (probeCovers : assignment.Covers probe.support)
    (index : Fin count) :
    (∀ strategy, Succeeds (history.build strategy) fun memories =>
      Succeeds ((memories index).read probe) fun value =>
        assignment.Finds valueWidth value
          (history.maps assignment.valuation index (probe.value assignment.valuation))) ∧
    Succeeds (history.build .dense) fun dense =>
      Succeeds (history.build .array) fun array =>
        Succeeds ((dense index).read probe) fun denseValue =>
          Succeeds ((array index).read probe) fun arrayValue =>
            denseValue.bits.map assignment.evaluate = arrayValue.bits.map assignment.evaluate ∧
            assignment.evaluateWord denseValue = assignment.evaluateWord arrayValue := by
  have reads := fun strategy => read_finds strategy history uniform covers probeWidth probeCovers
    index
  refine ⟨reads, ?_⟩
  refine (reads .dense).mono fun dense denseReads => ?_
  refine (reads .array).mono fun array arrayReads => ?_
  refine denseReads.mono fun denseValue denseFinds => ?_
  refine arrayReads.mono fun arrayValue arrayFinds => ?_
  exact ⟨denseFinds.digits.trans arrayFinds.digits.symm,
    denseFinds.evaluated.trans arrayFinds.evaluated.symm⟩

/-- Two writes whose addresses may coincide, and a choice between the memory after both
and the memory after the first. -/
def contested : History 4 :=
  let first : Word := ⟨[.var 0, .var 1]⟩
  (((start.reset (.constant 1 3)).write 0 first (.constant 5 3)).write 1 (.constant 2 2)
    (.constant 6 3)).merge (.var 2) 2 1

/-- Where both writes meet, the choice decides which of them a third alias sees. -/
theorem memory_reads_as_map_contested :
    let probe : Word := ⟨[.var 3, .literal true]⟩
    let assignment : Assignment := .ofList [(0, false), (1, true), (2, false), (3, false)]
    contested.Uniform 2 3 ∧ assignment.Covers contested.support ∧ probe.width = 2 ∧
      assignment.Covers probe.support ∧
      ∀ strategy, Succeeds (contested.build strategy) fun memories =>
        Succeeds ((memories 3).read probe) fun value => assignment.Finds 3 value 5 := by
  intro probe assignment
  have uniform : contested.Uniform 2 3 :=
    ⟨⟨⟨trivial, rfl⟩, rfl, rfl⟩, rfl, rfl⟩
  have covers : assignment.Covers contested.support := by decide
  have probeCovers : assignment.Covers probe.support := by decide
  have entry : contested.maps assignment.valuation 3 (probe.value assignment.valuation) = 5 := by
    decide
  refine ⟨uniform, covers, rfl, probeCovers, ?_⟩
  rw [← entry]
  exact (memory_reads_as_map contested uniform covers probe rfl probeCovers 3).1

end History
end SymbolicMachine
