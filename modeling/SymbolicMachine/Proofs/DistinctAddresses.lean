import SymbolicMachine.Proofs.Recognition
import SymbolicMachine.Proofs.WellFormedMachines

namespace SymbolicMachine

/-!
# Distinct addresses in dense memory

A dense memory that was made from a reset one by writes and merges has no two cells whose
addresses are recognised as one.  A write keeps it so by dropping cells, a merge by looking
every address up among those gathered before it.

Recognition is equality of outlines, so the invariant says that the outlines of the written
addresses have no duplicate.  It is what makes both mechanisms exact: a write replaces at most
one cell, and a merge adds precisely the addresses that the first memory does not know.
-/

namespace DenseMemory

variable {memory whenTrue whenFalse : DenseMemory} {gathered addresses : List Word}

/-! ## Lists of addresses -/

/-- No two of the addresses are recognised as one. -/
def Unrepeated (addresses : List Word) : Prop :=
  (addresses.map Word.outline).Nodup

theorem unrepeated_cons {address : Word} :
    Unrepeated (address :: addresses) ↔
      (∀ other ∈ addresses, address.identical other = false) ∧ Unrepeated addresses := by
  simp only [Unrepeated, List.map_cons, List.nodup_cons, List.mem_map, not_exists, not_and,
    Word.identical_eq_false_iff, ne_comm]

theorem Unrepeated.append_singleton {address : Word} (unrepeated : Unrepeated addresses)
    (unknown : ∀ known ∈ addresses, known.identical address = false) :
    Unrepeated (addresses ++ [address]) := by
  rw [Unrepeated, List.map_append, List.map_singleton]
  apply unrepeated.append (List.nodup_singleton _)
  rw [List.disjoint_singleton, List.mem_map]
  rintro ⟨known, member, same⟩
  exact Word.identical_eq_false_iff.mp (unknown known member) same

/-- Of addresses that are not repeated at most one is recognised in another one. -/
theorem Unrepeated.eraseP_eq_filter (unrepeated : Unrepeated addresses) (address : Word) :
    (addresses.eraseP fun known => known.identical address) =
      addresses.filter fun known => !known.identical address := by
  induction addresses with
  | nil => rfl
  | cons first rest ih =>
      have parts := unrepeated_cons.mp unrepeated
      cases same : first.identical address with
      | false => simp [same, ih parts.2]
      | true =>
          -- A second one would be recognised in the first, through the address.
          have others : ∀ known ∈ rest, (!known.identical address) = true := by
            intro known member
            have different := parts.1 known member
            rw [Word.identical_eq_false_iff, Word.identical_iff.mp same, ne_comm] at different
            rw [Word.identical_eq_false_iff.mpr different, Bool.not_false]
          simp [same, List.filter_eq_self.mpr others]

/-! ## Gathering -/

theorem Unrepeated.gather (unrepeated : Unrepeated gathered) (address : Word) :
    Unrepeated (gather gathered address) := by
  cases known : gathered.any fun other => other.identical address with
  | true => rwa [gather_of_known known]
  | false =>
      rw [gather_of_unknown known]
      apply unrepeated.append_singleton
      simpa using known

theorem Unrepeated.foldl_gather (unrepeated : Unrepeated gathered) (addresses : List Word) :
    Unrepeated (addresses.foldl DenseMemory.gather gathered) := by
  induction addresses generalizing gathered with
  | nil => exact unrepeated
  | cons first rest ih => exact ih (unrepeated.gather first)

/-- Gathering compares an address with all that was gathered before it.  Among addresses that are
not repeated only those from which it started matter. -/
theorem Unrepeated.foldl_gather_eq (unrepeated : Unrepeated addresses) (gathered : List Word) :
    addresses.foldl DenseMemory.gather gathered =
      gathered ++ addresses.filter fun address =>
        !gathered.any fun known => known.identical address := by
  induction addresses generalizing gathered with
  | nil => simp
  | cons first rest ih =>
      have parts := unrepeated_cons.mp unrepeated
      rw [List.foldl_cons]
      cases known : gathered.any fun other => other.identical first with
      | true => rw [gather_of_known known, ih parts.2, List.filter_cons_of_neg (by simp [known])]
      | false =>
          have later : ∀ address ∈ rest,
              (!(gathered ++ [first]).any fun known => known.identical address) =
                !gathered.any fun known => known.identical address := by
            intro address member
            simp [parts.1 address member]
          rw [gather_of_unknown known, ih parts.2, List.filter_cons_of_pos (by simp [known]),
            List.filter_congr later, List.append_assoc, List.singleton_append]

/-! ## Operations -/

theorem touched_write (memory : DenseMemory) (address value : Word) :
    (memory.write address value).touched =
      (memory.touched.filter fun known => !known.identical address) ++ [address] := by
  simp [touched, write, List.filter_map, Function.comp_def]

theorem returns_touched_merge (condition : Bit) (whenTrue whenFalse : DenseMemory) :
    Returns (merge condition whenTrue whenFalse) fun merged =>
      merged.touched = jointAddresses whenTrue whenFalse := by
  have oneCell : ∀ address, Returns (do
      let value ← Word.select condition (← whenTrue.read address) (← whenFalse.read address)
      return { address, value : Cell }) fun cell => cell.address = address := by
    intro address
    apply (Returns.any _).bind
    intro left _
    apply (Returns.any _).bind
    intro right _
    apply (Returns.any _).bind
    intro value _
    exact .pure rfl
  apply (Returns.mapM fun address _ => oneCell address).bind
  intro cells inOrder
  apply (Returns.any _).bind
  intro default _
  apply Returns.pure
  rw [touched, List.reverse_reverse, ← List.forall₂_eq_eq_eq, List.forall₂_map_left_iff]
  exact inOrder.flip

/-! ## Histories -/

/-- The memories that are made from reset ones by writes and merges. -/
inductive Reachable : DenseMemory -> Prop
  | reset (default : Word) : Reachable (.reset default)
  | write {memory : DenseMemory} (reachable : Reachable memory) (address value : Word) :
      Reachable (memory.write address value)
  | merge {whenTrue whenFalse merged : DenseMemory} (condition : Bit)
      (left : Reachable whenTrue) (right : Reachable whenFalse)
      (made : CanReturn (DenseMemory.merge condition whenTrue whenFalse) merged) :
      Reachable merged

theorem Reachable.unrepeated (reachable : memory.Reachable) : Unrepeated memory.touched := by
  induction reachable with
  | reset default => exact List.nodup_nil
  | @write memory _ address value ih =>
      rw [touched_write]
      have kept : Unrepeated (memory.touched.filter fun known => !known.identical address) :=
        (List.filter_sublist.map Word.outline).nodup ih
      apply kept.append_singleton
      intro known member
      simpa using (List.mem_filter.mp member).2
  | @merge whenTrue whenFalse merged condition left right made leftIh rightIh =>
      rw [(returns_touched_merge condition whenTrue whenFalse).of_canReturn made]
      exact leftIh.foldl_gather whenFalse.touched

/-- No two cells have addresses that are recognised as one. -/
def Distinct (memory : DenseMemory) : Prop :=
  ∀ (i j : Nat) (first second : Cell), memory.cells[i]? = some first ->
    memory.cells[j]? = some second -> first.address.identical second.address = true -> i = j

theorem distinct_of_unrepeated (unrepeated : Unrepeated memory.touched) : memory.Distinct := by
  intro i j first second here there same
  have outlines : (memory.cells.map fun cell => cell.address.outline).Nodup := by
    rw [Unrepeated, touched, List.map_map, List.map_reverse, List.nodup_reverse] at unrepeated
    exact unrepeated
  have bound : i < (memory.cells.map fun cell => cell.address.outline).length := by
    rw [List.length_map]
    exact (List.getElem?_eq_some_iff.mp here).1
  apply (List.getElem?_inj bound outlines).mp
  rw [List.getElem?_map, List.getElem?_map, here, there, Option.map_some, Option.map_some,
    Word.identical_iff.mp same]

open Interpretation in
/-- Memories of given widths can be merged. -/
theorem succeeds_merge {addressWidth valueWidth : Nat} (condition : Bit)
    (left : (Memory.dense whenTrue).Uniform addressWidth valueWidth)
    (right : (Memory.dense whenFalse).Uniform addressWidth valueWidth) :
    Succeeds (merge condition whenTrue whenFalse) fun _ => True := by
  have readsAll : ∀ bits, ground.ReadsAll bits := fun _ bit _ => ⟨_, reads_ground bit⟩
  rcases (readsAll _).holds left with ⟨leftMap, leftHolds⟩
  rcases (readsAll _).holds right with ⟨rightMap, rightHolds⟩
  have merged := HoldsCells.merge (reads_ground condition) leftHolds rightHolds
  exact merged.mono fun _ _ => trivial

/-- A memory that was made by resets, writes and merges never has two cells of recognisably one
address.  So a write drops the one address that is recognised in the written one, if there is one,
and puts the written one last, and a merge keeps the addresses of the first memory and puts those of
the second after them that none of the first is recognised in. -/
theorem addresses_stay_distinct {memory : DenseMemory} (reachable : memory.Reachable) :
    memory.Distinct ∧
    (∀ address value : Word, (memory.write address value).touched =
      (memory.touched.eraseP fun known => known.identical address) ++ [address]) ∧
    ∀ (other : DenseMemory), other.Reachable -> ∀ condition : Bit,
      let joined (merged : DenseMemory) : Prop :=
        merged.touched = memory.touched ++ other.touched.filter fun address =>
          !memory.touched.any fun known => known.identical address
      Returns (merge condition memory other) joined ∧
      ∀ addressWidth valueWidth : Nat, (Memory.dense memory).Uniform addressWidth valueWidth ->
        (Memory.dense other).Uniform addressWidth valueWidth ->
        Succeeds (merge condition memory other) joined := by
  have unrepeated := reachable.unrepeated
  refine ⟨distinct_of_unrepeated unrepeated, ?_, ?_⟩
  · intro address value
    rw [touched_write, unrepeated.eraseP_eq_filter]
  · intro other otherReachable condition joined
    have merged : Returns (merge condition memory other) joined := by
      apply (returns_touched_merge condition memory other).mono
      intro merged touches
      exact touches.trans (otherReachable.unrepeated.foldl_gather_eq memory.touched)
    refine ⟨merged, ?_⟩
    intro addressWidth valueWidth left right
    exact ((succeeds_merge condition left right).and_returns merged).mono fun _ => And.right

/-- A write to the conjunction of two variables replaces the cell of the same conjunction with its
operands swapped, and a merge does not list it a second time. -/
theorem addresses_stay_distinct_swapped :
    let conjunction : Word := ⟨[.andGate 0 (.var 0) 1 (.var 1)]⟩
    let swapped : Word := ⟨[.andGate 2 (.var 1) 3 (.var 0)]⟩
    let plain : Word := ⟨[.var 2]⟩
    let value : Word := .constant 1 8
    let base := (reset (.zero 8)).write conjunction value
    let left := base.write (.zero 1) value
    let right := (base.write swapped value).write plain value
    left.Reachable ∧ right.Reachable ∧ left.Distinct ∧
    conjunction.identical swapped = true ∧
    right.touched = [swapped, plain] ∧
    (left.write swapped value).touched = [.zero 1, swapped] ∧
    Succeeds (merge (.var 3) left right) fun merged =>
      merged.touched = [conjunction, .zero 1, plain] := by
  intro conjunction swapped plain value base left right
  have baseReachable : base.Reachable := .write (.reset _) _ _
  have leftReachable : left.Reachable := .write baseReachable _ _
  have rightReachable : right.Reachable := .write (.write baseReachable _ _) _ _
  rcases addresses_stay_distinct leftReachable with ⟨distinct, written, joined⟩
  have leftUniform : (Memory.dense left).Uniform 1 8 := by
    rw [Memory.Uniform]
    decide +kernel
  have rightUniform : (Memory.dense right).Uniform 1 8 := by
    rw [Memory.Uniform]
    decide +kernel
  have merged := (joined right rightReachable (.var 3)).2 1 8 leftUniform rightUniform
  refine ⟨leftReachable, rightReachable, distinct, by decide, by decide +kernel, ?_, ?_⟩
  · rw [written]
    decide +kernel
  · apply merged.mono
    intro merged touches
    rw [touches]
    decide +kernel

end DenseMemory
end SymbolicMachine
