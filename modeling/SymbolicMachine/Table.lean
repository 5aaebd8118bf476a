namespace SymbolicMachine

/-!
# Ascending tables

A table maps finitely many numbers to values.  Its entries stand in strictly
ascending order, so no number occurs twice, tables with equal entries are equal,
the least entry is the first one, and listing a table needs no sorting.
-/

/-- If no key occurs twice, a look-up finds every entry. -/
theorem lookup_eq_some_iff_mem {κ α : Type} [BEq κ] [LawfulBEq κ] {entries : List (κ × α)}
    {key : κ} {value : α} (distinct : (entries.map Prod.fst).Nodup) :
    entries.lookup key = some value ↔ (key, value) ∈ entries := by
  rw [List.lookup_eq_some_iff]
  constructor
  · intro ⟨before, after, split, _⟩
    rw [split]
    exact List.mem_append_right _ List.mem_cons_self
  · intro member
    rcases List.append_of_mem member with ⟨before, after, rfl⟩
    refine ⟨before, after, rfl, ?_⟩
    intro entry earlier
    rw [List.map_append, List.nodup_append] at distinct
    have apart := distinct.2.2 entry.1 (List.mem_map_of_mem earlier) key List.mem_cons_self
    simpa using apart.symm

/-- A finite map from numbers, with its entries in ascending order. -/
structure Table (α : Type) where
  entries : List (Nat × α)
  ascending : entries.Pairwise fun earlier later => earlier.1 < later.1
  deriving DecidableEq, Repr

namespace Table

variable {α : Type}

/-- The table without entries. -/
def empty : Table α where
  entries := []
  ascending := .nil

instance : Inhabited (Table α) := ⟨empty⟩

def isEmpty (table : Table α) : Bool :=
  table.entries.isEmpty

/-- Number of entries. -/
def size (table : Table α) : Nat :=
  table.entries.length

/-- The value of a number. -/
def get? (table : Table α) (key : Nat) : Option α :=
  table.entries.lookup key

@[simp] theorem get?_empty (key : Nat) : (empty : Table α).get? key = none :=
  rfl

/-- The numbers that have an entry. -/
def keys (table : Table α) : List Nat :=
  table.entries.map Prod.fst

theorem nodup_keys (table : Table α) : table.keys.Nodup :=
  List.pairwise_map.mpr (table.ascending.imp Nat.ne_of_lt)

theorem length_keys (table : Table α) : table.keys.length = table.size :=
  List.length_map _

theorem mem_keys {table : Table α} {key : Nat} :
    key ∈ table.keys ↔ (table.get? key).isSome = true := by
  rw [keys, get?, List.lookup_isSome_iff]
  simp

/-- Put an entry in its place, replacing the entry of the same number. -/
def insertEntry (key : Nat) (value : α) : List (Nat × α) -> List (Nat × α)
  | [] => [(key, value)]
  | (other, kept) :: rest =>
      if key < other then (key, value) :: (other, kept) :: rest
      else if key = other then (key, value) :: rest
      else (other, kept) :: insertEntry key value rest

/-- Every entry after an insertion is the inserted one or was there before. -/
theorem mem_insertEntry {key : Nat} {value : α} {entries : List (Nat × α)}
    {entry : Nat × α} (member : entry ∈ insertEntry key value entries) :
    entry = (key, value) ∨ entry ∈ entries := by
  induction entries with
  | nil => simpa [insertEntry] using member
  | cons head rest ih =>
      simp only [insertEntry] at member
      split at member
      · simpa using member
      · split at member
        · rcases List.mem_cons.mp member with here | later
          · exact .inl here
          · exact .inr (List.mem_cons_of_mem _ later)
        · rcases List.mem_cons.mp member with here | later
          · exact .inr (here ▸ List.mem_cons_self)
          · rcases ih later with inserted | kept
            · exact .inl inserted
            · exact .inr (List.mem_cons_of_mem _ kept)

/-- An insertion keeps the order. -/
theorem insertEntry_ascending (key : Nat) (value : α) (entries : List (Nat × α))
    (ascending : entries.Pairwise fun earlier later => earlier.1 < later.1) :
    (insertEntry key value entries).Pairwise fun earlier later => earlier.1 < later.1 := by
  induction entries with
  | nil => simp [insertEntry]
  | cons head rest ih =>
      have parts := List.pairwise_cons.mp ascending
      simp only [insertEntry]
      split
      · rename_i smaller
        refine List.pairwise_cons.mpr ⟨fun entry member => ?_, ascending⟩
        rcases List.mem_cons.mp member with here | later
        · simpa [here] using smaller
        · exact Nat.lt_trans smaller (parts.1 entry later)
      · split
        · rename_i same
          refine List.pairwise_cons.mpr ⟨fun entry member => ?_, parts.2⟩
          simpa [same] using parts.1 entry member
        · rename_i notSmaller different
          refine List.pairwise_cons.mpr ⟨fun entry member => ?_, ih parts.2⟩
          rcases mem_insertEntry member with inserted | kept
          · simp only [inserted]
            omega
          · exact parts.1 entry kept

/-- Looking up after an insertion finds the new value at its number and what was
there before at every other. -/
theorem lookup_insertEntry (key other : Nat) (value : α) (entries : List (Nat × α)) :
    (insertEntry key value entries).lookup other =
      if other = key then some value else entries.lookup other := by
  by_cases same : other = key
  · subst same
    induction entries with
    | nil => simp [insertEntry]
    | cons head rest ih =>
        rcases head with ⟨number, kept⟩
        simp only [insertEntry]
        split
        · simp
        · split
          · simp
          · rename_i different
            have elsewhere : (other == number) = false := beq_eq_false_iff_ne.mpr different
            simpa [List.lookup_cons, elsewhere] using ih
  · have elsewhere : (other == key) = false := by simpa using same
    simp only [if_neg same]
    induction entries with
    | nil => simp [insertEntry, List.lookup_cons, elsewhere]
    | cons head rest ih =>
        rcases head with ⟨number, kept⟩
        simp only [insertEntry]
        split
        · simp [List.lookup_cons, elsewhere]
        · split
          · rename_i replaced
            simp [List.lookup_cons, elsewhere, ← replaced]
          · simp [List.lookup_cons, ih]

/-- Give a number a value, whatever it had before. -/
def insert (table : Table α) (key : Nat) (value : α) : Table α where
  entries := insertEntry key value table.entries
  ascending := insertEntry_ascending key value table.entries table.ascending

@[simp] theorem get?_insert (table : Table α) (key other : Nat) (value : α) :
    (table.insert key value).get? other =
      if other = key then some value else table.get? other :=
  lookup_insertEntry key other value table.entries

/-- The second of two insertions at one number holds. -/
theorem insert_insert (table : Table α) (key : Nat) (first second : α) :
    (table.insert key first).insert key second = table.insert key second := by
  have entriesEqual : ∀ entries : List (Nat × α),
      insertEntry key second (insertEntry key first entries) = insertEntry key second entries := by
    intro entries
    induction entries with
    | nil => simp [insertEntry]
    | cons head rest ih =>
        rcases head with ⟨number, kept⟩
        by_cases smaller : key < number
        · simp [insertEntry, smaller]
        · by_cases same : key = number
          · simp [insertEntry, same]
          · simp [insertEntry, smaller, same, ih]
  rcases table with ⟨entries, ascending⟩
  rw [insert, insert, Table.mk.injEq]
  exact entriesEqual entries

/-- Insert entries from first to last, so that the last one of a number holds. -/
def insertAll (table : Table α) (entries : List (Nat × α)) : Table α :=
  entries.foldl (fun table (key, value) => table.insert key value) table

/-- The table with the given entries, of which the last one of a number holds. -/
def ofList (entries : List (Nat × α)) : Table α :=
  empty.insertAll entries

/-- The least entry, and the table without it. -/
def popFirst? (table : Table α) : Option ((Nat × α) × Table α) :=
  match table with
  | { entries := [], .. } => none
  | { entries := first :: rest, ascending } =>
      some (first, { entries := rest, ascending := (List.pairwise_cons.mp ascending).2 })

/-- Of two entries the one with the lower number comes first. -/
theorem popFirst?_insert_insert {first second : Nat} (ordered : first < second)
    (value later : α) :
    ((empty.insert second later).insert first value).popFirst? =
      some ((first, value), empty.insert second later) := by
  simp [insert, empty, insertEntry, popFirst?, ordered]

theorem popFirst?_eq_none_iff {table : Table α} :
    table.popFirst? = none ↔ table.isEmpty = true := by
  rcases table with ⟨_ | ⟨first, rest⟩, ascending⟩ <;> simp [popFirst?, isEmpty]

theorem get?_eq_none_of_popFirst? {table : Table α} (drained : table.popFirst? = none)
    (key : Nat) : table.get? key = none := by
  rcases table with ⟨_ | ⟨first, rest⟩, ascending⟩
  · rfl
  · cases drained

/-- The least entry is what is missing from the rest, and all that is missing. -/
theorem get?_of_popFirst? {table rest : Table α} {key : Nat} {value : α}
    (popped : table.popFirst? = some ((key, value), rest)) :
    table.get? key = some value ∧ rest.get? key = none ∧
      ∀ other, other ≠ key -> table.get? other = rest.get? other := by
  rcases table with ⟨_ | ⟨first, entries⟩, ascending⟩
  · cases popped
  · cases popped
    have later := (List.pairwise_cons.mp ascending).1
    refine ⟨by simp [get?], ?_, ?_⟩
    · apply List.lookup_eq_none_iff.mpr
      intro entry member
      have larger := later entry member
      simp only [bne_iff_ne, ne_eq]
      omega
    · intro other different
      have elsewhere : (other == key) = false := beq_eq_false_iff_ne.mpr different
      simp [get?, List.lookup_cons, elsewhere]

/-- The rest has greater numbers only. -/
theorem lt_of_popFirst? {table rest : Table α} {key other : Nat} {value : α}
    (popped : table.popFirst? = some ((key, value), rest))
    (later : (rest.get? other).isSome = true) : key < other := by
  rcases table with ⟨_ | ⟨first, entries⟩, ascending⟩
  · cases popped
  · cases popped
    rcases List.lookup_isSome_iff.mp later with ⟨entry, member, same⟩
    rw [eq_of_beq same]
    exact (List.pairwise_cons.mp ascending).1 entry member

end Table
end SymbolicMachine
