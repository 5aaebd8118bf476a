import Mathlib.Data.List.Forall2

namespace SymbolicMachine

/-!
# Traversals

Facts about lists that are traversed, about lists that correspond item by item, and about
outcomes whose results are passed on.  They hold whatever the items and the results are, and
nothing in them is particular to symbolic machines.
-/

variable {α β ε : Type}

/-! ## Traversed lists -/

/-- A traversal that returns every item as it is returns the list as it is. -/
theorem mapM_eq_pure {m : Type -> Type} [Monad m] [LawfulMonad m] {construct : α -> m α}
    {items : List α} (each : ∀ item ∈ items, construct item = pure item) :
    items.mapM construct = pure items := by
  induction items with
  | nil => rfl
  | cons item rest ih =>
      rw [List.forall_mem_cons] at each
      rw [List.mapM_cons, each.1, ih each.2, pure_bind, pure_bind]

/-- What is found for the first item is put in front of what is found for the others. -/
theorem mapM_cons_eq_bind_map (function : α -> Option β) (item : α) (rest : List α) :
    (item :: rest).mapM function =
      (function item).bind fun result => (rest.mapM function).map (result :: ·) := by
  rw [List.mapM_cons]
  cases function item with
  | none => rfl
  | some result => cases rest.mapM function <;> rfl

theorem mapM_eq_some_iff {function : α -> Option β} {items : List α} {results : List β} :
    items.mapM function = some results ↔
      List.Forall₂ (fun item result => function item = some result) items results := by
  constructor
  · intro found
    induction items generalizing results with
    | nil =>
        cases found
        exact .nil
    | cons item rest ih =>
        rw [List.mapM_cons] at found
        rcases Option.bind_eq_some_iff.mp found with ⟨result, first, remaining⟩
        rcases Option.bind_eq_some_iff.mp remaining with ⟨others, later, same⟩
        cases same
        exact .cons first (ih later)
  · intro related
    induction related with
    | nil => rfl
    | cons head tail ih =>
        rw [List.mapM_cons, head, ih]
        rfl

/-! ## Corresponding lists -/

variable {related : α -> β -> Prop} {items : List α} {others : List β}

theorem exists_related (pairs : List.Forall₂ related items others) {item : α}
    (member : item ∈ items) : ∃ other ∈ others, related item other := by
  induction pairs with
  | nil => cases member
  | @cons first second items others head tail ih =>
      rcases List.mem_cons.mp member with here | later
      · exact ⟨second, List.mem_cons_self, here ▸ head⟩
      · rcases ih later with ⟨other, otherMember, holds⟩
        exact ⟨other, List.mem_cons_of_mem _ otherMember, holds⟩

theorem exists_of_getElem? (pairs : List.Forall₂ related items others) {index : Nat} {item : α}
    (found : items[index]? = some item) :
    ∃ partner, others[index]? = some partner ∧ related item partner := by
  induction pairs generalizing index with
  | nil => cases found
  | @cons _ partner _ _ head tail ih =>
      cases index with
      | zero =>
          cases found
          exact ⟨partner, rfl, head⟩
      | succ index => exact ih found

/-! ## Results that are passed on -/

variable {outcome : Except ε α} {function : α -> β}

theorem map_eq_error_iff {cause : ε} :
    outcome.map function = .error cause ↔ outcome = .error cause := by
  cases outcome <;> simp [Except.map]

theorem map_eq_ok_iff {result : β} :
    outcome.map function = .ok result ↔ ∃ value, outcome = .ok value ∧ function value = result := by
  cases outcome <;> simp [Except.map]

end SymbolicMachine
