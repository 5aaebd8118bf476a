import Mathlib.Data.List.Nodup
import Mathlib.Data.String.Basic
import Mathlib.Order.Bounds.Basic
import SymbolicMachine.Program.Assembly
import SymbolicMachine.Traversal

namespace SymbolicMachine
namespace Assembly

/-!
# Label resolution

What a source means can be said without assembling it.  A label is placed where a certain
number of instructions comes before it, a branch refers to the label of its name, wherever that
is placed, and the program has the instructions of the source in their order.  Assembling finds
this program if there is one.

There is none if a label is placed twice, if a label that is referred to is placed nowhere, or
if a branch leads past the last instruction.  These are looked for in this order, and of several
faults of one kind the first one in the source is reported.  So each outcome has a condition on
the source, and the conditions exclude each other.
-/

/-! ## What a source says -/

/-- The item becomes an instruction of the program. -/
def Item.emits : Item -> Bool
  | .label _ => false
  | .instruction _ | .branchIfClear .. => true

/-- The label to which an item refers. -/
def Item.reference? : Item -> Option String
  | .branchIfClear _ name => some name
  | .label _ | .instruction _ => none

/-- Number of instructions that a source emits. -/
def emitted (items : List Item) : Nat :=
  items.countP Item.emits

/-- A name is placed where `pc` instructions have been emitted. -/
def Places (items : List Item) (name : String) (pc : Nat) : Prop :=
  ∃ before after, items = before ++ .label name :: after ∧ emitted before = pc

/-- The instruction that an item becomes, where names stand for what they are placed at. -/
inductive Item.Becomes (placed : String -> Nat -> Prop) : Item -> Instruction -> Prop
  | instruction (instruction : Instruction) : Becomes placed (.instruction instruction) instruction
  | branchIfClear (flag : Flag) {label : String} {target : Nat} : placed label target ->
      Becomes placed (.branchIfClear flag label) (.branchIfClear flag target)

/-- The item is a branch to a target, given by its number or by a name. -/
def Item.LeadsTo (placed : String -> Nat -> Prop) : Item -> Nat -> Prop
  | .label _, _ => False
  | .instruction branch, target => branch.target? = some target
  | .branchIfClear _ name, target => placed name target

/-- Some item is found, and all items before it are passed over. -/
def First (found : List Item -> Item -> Prop) (passed : Item -> Prop) (items : List Item) : Prop :=
  ∃ before item after, items = before ++ item :: after ∧ found before item ∧
    ∀ earlier ∈ before, passed earlier

/-- No label is placed twice. -/
def Distinct (items : List Item) : Prop :=
  ∀ name, items.count (.label name) ≤ 1

/-- The name is the first one that is placed again. -/
def FirstRepeated (items : List Item) (name : String) : Prop :=
  ∃ before after, items = before ++ .label name :: after ∧ .label name ∈ before ∧ Distinct before

/-- Every label to which an item refers is placed. -/
def Item.Defined (items : List Item) (item : Item) : Prop :=
  ∀ label, item.reference? = some label -> .label label ∈ items

/-- The instruction at `pc` is the first one that refers to a label that is placed nowhere. -/
def FirstUndefined (items : List Item) (label : String) (pc : Nat) : Prop :=
  First (fun before item => item.reference? = some label ∧ .label label ∉ items ∧
    emitted before = pc) (Item.Defined items) items

/-- The item leads to instructions of the program only. -/
def Item.Confined (items : List Item) (item : Item) : Prop :=
  ∀ target, item.LeadsTo (Places items) target -> target < emitted items

/-- The instruction at `pc` is the first one that leads past the last instruction. -/
def FirstStray (items : List Item) (pc target : Nat) : Prop :=
  First (fun before item => item.LeadsTo (Places items) target ∧ emitted items ≤ target ∧
    emitted before = pc) (Item.Confined items) items

/-- The program has the instructions of the source in their order, with numbers in place of
names.  Where names are placed the greatest of them is listed, and nothing is listed elsewhere. -/
structure Describes (items : List Item) (program : Program) : Prop where
  instructions : List.Forall₂ (Item.Becomes (Places items)) (items.filter Item.emits)
    program.instructions
  labelled : ∀ pc, (program.label? pc).isSome ↔ ∃ name, Places items name pc
  greatest : ∀ pc name, program.label? pc = some name ->
    IsGreatest { other | Places items other pc } name

/-! ## Items one by one -/

@[simp] theorem emitted_nil : emitted [] = 0 :=
  rfl

@[simp] theorem emitted_label (name : String) (items : List Item) :
    emitted (.label name :: items) = emitted items :=
  List.countP_cons_of_neg Bool.false_ne_true

@[simp] theorem emitted_instruction (instruction : Instruction) (items : List Item) :
    emitted (.instruction instruction :: items) = emitted items + 1 :=
  List.countP_cons_of_pos rfl

@[simp] theorem emitted_branchIfClear (flag : Flag) (label : String) (items : List Item) :
    emitted (.branchIfClear flag label :: items) = emitted items + 1 :=
  List.countP_cons_of_pos rfl

@[simp] theorem reference?_label (name : String) : (Item.label name).reference? = none :=
  rfl

@[simp] theorem reference?_instruction (instruction : Instruction) :
    (Item.instruction instruction).reference? = none :=
  rfl

@[simp] theorem reference?_branchIfClear (flag : Flag) (label : String) :
    (Item.branchIfClear flag label).reference? = some label :=
  rfl

variable {placed : String -> Nat -> Prop} {instruction other : Instruction}

@[simp] theorem becomes_instruction :
    (Item.instruction instruction).Becomes placed other ↔ other = instruction := by
  constructor
  · intro becomes
    cases becomes
    rfl
  · intro same
    rw [same]
    exact .instruction instruction

@[simp] theorem becomes_branchIfClear {flag : Flag} {label : String} :
    (Item.branchIfClear flag label).Becomes placed other ↔
      ∃ target, placed label target ∧ other = .branchIfClear flag target := by
  constructor
  · intro becomes
    cases becomes with
    | branchIfClear flag leads => exact ⟨_, leads, rfl⟩
  · intro ⟨target, leads, same⟩
    exact same ▸ .branchIfClear flag leads

variable {found : List Item -> Item -> Prop} {passed : Item -> Prop}

@[simp] theorem not_first_nil : ¬ First found passed [] := by
  intro ⟨before, item, after, split, _⟩
  simp at split

/-- The first item is found, or it is passed over and something is found later. -/
theorem first_cons {head : Item} {rest : List Item} :
    First found passed (head :: rest) ↔
      found [] head ∨ passed head ∧ First (fun before => found (head :: before)) passed rest := by
  constructor
  · intro ⟨before, item, after, split, holds, passedOver⟩
    cases before with
    | nil =>
        cases split
        exact .inl holds
    | cons first others =>
        cases split
        have later := List.forall_mem_cons.mp passedOver
        exact .inr ⟨later.1, others, item, after, rfl, holds, later.2⟩
  · intro either
    rcases either with here | ⟨passedHead, before, item, after, split, holds, passedOver⟩
    · exact ⟨[], head, rest, rfl, here, fun _ impossible => nomatch impossible⟩
    · refine ⟨head :: before, item, after, ?_, holds, ?_⟩
      · rw [split, List.cons_append]
      · exact List.forall_mem_cons.mpr ⟨passedHead, passedOver⟩

/-- All items are passed over just if nothing is found, provided that something is to be found
at the items that are not. -/
theorem forall_passed_iff {α : Type} {found : α -> List Item -> Item -> Prop} {items : List Item}
    (detected : ∀ before item, (∃ fault, found fault before item) ↔ ¬ passed item) :
    (∀ item ∈ items, passed item) ↔ ∀ fault, ¬ First (found fault) passed items := by
  induction items generalizing found with
  | nil => simp
  | cons head rest ih =>
      have nothing := not_congr (detected [] head)
      rw [not_exists, not_not] at nothing
      have later := @ih (fun fault before => found fault (head :: before)) fun before =>
        detected (head :: before)
      simp only [first_cons, not_or, not_and, forall_and, List.forall_mem_cons, nothing, later]
      constructor
      · intro ⟨passedHead, clear⟩
        exact ⟨passedHead, fun fault _ => clear fault⟩
      · intro ⟨passedHead, clear⟩
        exact ⟨passedHead, fun fault => clear fault passedHead⟩

/-! ## Labels that are placed twice -/

theorem firstRepeated?_eq_none_iff {seen names : List String} :
    firstRepeated? seen names = none ↔ names.Nodup ∧ ∀ name ∈ names, name ∉ seen := by
  induction names generalizing seen with
  | nil => simp [firstRepeated?]
  | cons name rest ih =>
      by_cases known : name ∈ seen
      · simp [firstRepeated?, known]
      · rw [firstRepeated?, if_neg (by simpa using known), ih, List.nodup_cons,
          List.forall_mem_cons]
        constructor
        · intro ⟨distinct, apart⟩
          have once : name ∉ rest := fun again => apart name again List.mem_cons_self
          refine ⟨⟨once, distinct⟩, known, ?_⟩
          intro other member seenBefore
          exact apart other member (List.mem_cons_of_mem _ seenBefore)
        · intro ⟨⟨once, distinct⟩, _, apart⟩
          refine ⟨distinct, ?_⟩
          intro other member seenBefore
          rcases List.mem_cons.mp seenBefore with same | earlier
          · exact once (same ▸ member)
          · exact apart other member earlier

theorem firstRepeated?_eq_some_iff {seen names : List String} {name : String} :
    firstRepeated? seen names = some name ↔
      ∃ before after, names = before ++ name :: after ∧ (name ∈ seen ∨ name ∈ before) ∧
        firstRepeated? seen before = none := by
  induction names generalizing seen with
  | nil => simp [firstRepeated?]
  | cons head rest ih =>
      by_cases known : head ∈ seen
      · have stops : ∀ names, firstRepeated? seen (head :: names) = some head := by
          intro names
          rw [firstRepeated?, if_pos (by simpa using known)]
        rw [stops, Option.some.injEq]
        constructor
        · intro same
          exact ⟨[], rest, by rw [same]; rfl, .inl (same ▸ known), rfl⟩
        · intro ⟨before, after, split, _, fresh⟩
          cases before with
          | nil => exact (List.cons.inj split).1
          | cons first others =>
              rw [← (List.cons.inj split).1, stops] at fresh
              cases fresh
      · have passes : ∀ names, firstRepeated? seen (head :: names) =
            firstRepeated? (head :: seen) names := by
          intro names
          rw [firstRepeated?, if_neg (by simpa using known)]
        rw [passes, ih]
        constructor
        · intro ⟨before, after, split, again, fresh⟩
          refine ⟨head :: before, after, by rw [split, List.cons_append], ?_, ?_⟩
          · simp only [List.mem_cons] at again ⊢
            tauto
          · rw [passes, fresh]
        · intro ⟨before, after, split, again, fresh⟩
          cases before with
          | nil =>
              rcases again with earlier | impossible
              · exact absurd ((List.cons.inj split).1 ▸ earlier) known
              · cases impossible
          | cons first others =>
              rcases List.cons.inj split with ⟨rfl, later⟩
              rw [passes] at fresh
              refine ⟨others, after, later, ?_, fresh⟩
              simp only [List.mem_cons] at again ⊢
              tauto

theorem count_placedNames (items : List Item) (name : String) :
    (placedNames items).count name = items.count (.label name) := by
  induction items with
  | nil => rfl
  | cons item rest ih =>
      cases item with
      | label other =>
          have head : placedNames (.label other :: rest) = other :: placedNames rest := rfl
          rw [head, List.count_cons, List.count_cons, ih]
          simp
      | instruction instruction => simpa [placedNames] using ih
      | branchIfClear flag label => simpa [placedNames] using ih

theorem nodup_placedNames_iff {items : List Item} : (placedNames items).Nodup ↔ Distinct items := by
  simp only [List.nodup_iff_count_le_one, count_placedNames, Distinct]

theorem mem_placedNames {items : List Item} {name : String} :
    name ∈ placedNames items ↔ .label name ∈ items := by
  rw [← List.count_pos_iff, count_placedNames, List.count_pos_iff]

theorem distinct_iff {items : List Item} :
    Distinct items ↔ firstRepeated? [] (placedNames items) = none := by
  simp [firstRepeated?_eq_none_iff, nodup_placedNames_iff]

/-- A name among those that a source places has a label in the source. -/
theorem exists_of_placedNames_eq {items : List Item} {before after : List String} {name : String}
    (split : placedNames items = before ++ name :: after) :
    ∃ earlier later, items = earlier ++ .label name :: later ∧ placedNames earlier = before := by
  rcases List.filterMap_eq_append_iff.mp split with ⟨front, back, rfl, frontNames, backNames⟩
  rcases List.filterMap_eq_cons_iff.mp backNames with ⟨unnamed, item, later, rfl, none, named, _⟩
  have label : item = .label name := by
    cases item <;> simp at named
    rw [named]
  refine ⟨front ++ unnamed, later, by rw [label, List.append_assoc], ?_⟩
  have nothing : placedNames unnamed = [] := List.filterMap_eq_nil_iff.mpr none
  have together : placedNames (front ++ unnamed) = placedNames front ++ placedNames unnamed :=
    List.filterMap_append
  rw [together, nothing, List.append_nil]
  exact frontNames

theorem firstRepeated_iff {items : List Item} {name : String} :
    FirstRepeated items name ↔ firstRepeated? [] (placedNames items) = some name := by
  rw [firstRepeated?_eq_some_iff]
  constructor
  · intro ⟨before, after, split, again, distinct⟩
    refine ⟨placedNames before, placedNames after, ?_, .inr (mem_placedNames.mpr again),
      distinct_iff.mp distinct⟩
    rw [split]
    exact List.filterMap_append
  · intro ⟨before, after, split, again, fresh⟩
    rcases exists_of_placedNames_eq split with ⟨earlier, later, itemSplit, rfl⟩
    refine ⟨earlier, later, itemSplit, ?_, distinct_iff.mpr fresh⟩
    rcases again with impossible | again
    · cases impossible
    · exact mem_placedNames.mp again

/-! ## Where labels are placed -/

theorem mem_placements {items : List Item} {start pc : Nat} {name : String} :
    (name, pc) ∈ placements start items ↔
      First (fun before item => item = .label name ∧ start + emitted before = pc) (fun _ => True)
        items := by
  induction items generalizing start with
  | nil => simp [placements]
  | cons item rest ih =>
      rw [first_cons]
      cases item with
      | label other => simp [placements, ih, eq_comm]
      | instruction instruction => simp [placements, ih, Nat.add_assoc, Nat.add_comm 1]
      | branchIfClear flag label => simp [placements, ih, Nat.add_assoc, Nat.add_comm 1]

theorem places_iff {items : List Item} {name : String} {pc : Nat} :
    Places items name pc ↔ (name, pc) ∈ placements 0 items := by
  rw [mem_placements]
  constructor
  · intro ⟨before, after, split, count⟩
    exact ⟨before, .label name, after, split, ⟨rfl, by rw [count, Nat.zero_add]⟩,
      fun _ _ => trivial⟩
  · intro ⟨before, item, after, split, ⟨label, count⟩, _⟩
    exact ⟨before, after, label ▸ split, by rw [← count, Nat.zero_add]⟩

theorem map_fst_placements (start : Nat) (items : List Item) :
    (placements start items).map Prod.fst = placedNames items := by
  induction items generalizing start with
  | nil => rfl
  | cons item rest ih =>
      cases item with
      | label name => simp [placements, placedNames, ih start]
      | instruction instruction => simp [placements, placedNames, ih (start + 1)]
      | branchIfClear flag label => simp [placements, placedNames, ih (start + 1)]

theorem lookup_placements {items : List Item} (distinct : Distinct items) {name : String}
    {pc : Nat} : (placements 0 items).lookup name = some pc ↔ Places items name pc := by
  rw [places_iff]
  apply lookup_eq_some_iff_mem
  rw [map_fst_placements]
  exact nodup_placedNames_iff.mpr distinct

theorem lookup_placements_eq_none {items : List Item} {name : String} :
    (placements 0 items).lookup name = none ↔ .label name ∉ items := by
  rw [← mem_placedNames, ← map_fst_placements 0, List.lookup_eq_none_iff, List.mem_map, not_exists]
  apply forall_congr'
  intro entry
  rw [not_and, bne_iff_ne, ne_comm]

/-! ## Resolving references -/

variable {places : List (String × Nat)} {start : Nat} {rest : List Item}

theorem resolve_instruction (instruction : Instruction) :
    resolve places start (.instruction instruction :: rest) =
      (resolve places (start + 1) rest).map (instruction :: ·) :=
  rfl

theorem resolve_undefined (flag : Flag) {label : String} (unplaced : places.lookup label = none) :
    resolve places start (.branchIfClear flag label :: rest) =
      .error (.undefinedLabel label start) := by
  simp only [resolve, unplaced]
  rfl

theorem resolve_branch (flag : Flag) {label : String} {target : Nat}
    (placed : places.lookup label = some target) :
    resolve places start (.branchIfClear flag label :: rest) =
      (resolve places (start + 1) rest).map (.branchIfClear flag target :: ·) := by
  simp only [resolve, placed]
  rfl

/-- Resolving fails at the first reference that cannot be looked up. -/
theorem resolve_eq_error_iff {items : List Item} {cause : ProgramError} :
    resolve places start items = .error cause ↔
      First (fun before item => ∃ label, item.reference? = some label ∧
          places.lookup label = none ∧ .undefinedLabel label (start + emitted before) = cause)
        (fun item => ∀ label, item.reference? = some label -> places.lookup label ≠ none)
        items := by
  induction items generalizing start with
  | nil => simp [resolve, pure, Except.pure]
  | cons item rest ih =>
      rw [first_cons]
      cases item with
      | label name => simp [resolve, ih]
      | instruction instruction =>
          simp [resolve_instruction, map_eq_error_iff, ih, Nat.add_assoc, Nat.add_comm 1]
      | branchIfClear flag label =>
          simp only [reference?_branchIfClear, Option.some.injEq, exists_eq_left', forall_eq']
          cases found : places.lookup label with
          | none => simp [resolve_undefined flag found]
          | some target =>
              simp [resolve_branch flag found, map_eq_error_iff, ih, Nat.add_assoc, Nat.add_comm 1]

/-- Resolving succeeds with what the items become. -/
theorem resolve_eq_ok_iff {items : List Item} {instructions : List Instruction} :
    resolve places start items = .ok instructions ↔
      List.Forall₂ (Item.Becomes fun label target => places.lookup label = some target)
        (items.filter Item.emits) instructions := by
  induction items generalizing start instructions with
  | nil => simp [resolve, pure, Except.pure, eq_comm]
  | cons item rest ih =>
      cases item with
      | label name => simpa [resolve, Item.emits] using ih
      | instruction instruction =>
          rw [resolve_instruction, map_eq_ok_iff, List.filter_cons_of_pos rfl,
            List.forall₂_cons_left_iff]
          simp [ih, eq_comm]
      | branchIfClear flag label =>
          rw [List.filter_cons_of_pos rfl, List.forall₂_cons_left_iff]
          cases found : places.lookup label with
          | none =>
              simp only [resolve_undefined flag found, becomes_branchIfClear, found, reduceCtorEq,
                false_and, exists_false]
          | some target =>
              rw [resolve_branch flag found, map_eq_ok_iff]
              simp [ih, found, eq_comm]

/-! ## Branches past the end -/

theorem Item.Becomes.leadsTo_iff {item : Item} (becomes : item.Becomes placed instruction)
    (unique : ∀ label first second, placed label first -> placed label second -> first = second)
    (target : Nat) : item.LeadsTo placed target ↔ instruction.target? = some target := by
  cases becomes with
  | instruction instruction => exact Iff.rfl
  | branchIfClear flag leads =>
      constructor
      · intro other
        exact congrArg some (unique _ _ _ leads other)
      · intro same
        exact Option.some.inj same ▸ leads

theorem strayBranch?_cons {length pc target : Nat} {later : List Instruction} :
    Program.strayBranch? length start (instruction :: later) = some (pc, target) ↔
      (instruction.target? = some target ∧ length ≤ target ∧ start = pc) ∨
      (∀ inside, instruction.target? = some inside -> inside < length) ∧
        Program.strayBranch? length (start + 1) later = some (pc, target) := by
  cases leads : instruction.target? with
  | none => simp [Program.strayBranch?, leads]
  | some destination =>
      by_cases inside : destination < length
      · simp [Program.strayBranch?, leads, inside]
        omega
      · simp [Program.strayBranch?, leads, inside]
        omega

/-- The stray branch that is found is the first one. -/
theorem strayBranch?_eq_some_iff {items : List Item} {instructions : List Instruction}
    {length pc target : Nat}
    (unique : ∀ label first second, placed label first -> placed label second -> first = second)
    (becomes : List.Forall₂ (Item.Becomes placed) (items.filter Item.emits) instructions) :
    Program.strayBranch? length start instructions = some (pc, target) ↔
      First (fun before item => item.LeadsTo placed target ∧ length ≤ target ∧
          start + emitted before = pc)
        (fun item => ∀ inside, item.LeadsTo placed inside -> inside < length) items := by
  induction items generalizing start instructions with
  | nil =>
      cases becomes
      simp [Program.strayBranch?]
  | cons item rest ih =>
      rw [first_cons]
      by_cases emits : item.emits = true
      · rw [List.filter_cons_of_pos emits] at becomes
        cases becomes with
        | cons head tail =>
            have count : ∀ before, emitted (item :: before) = emitted before + 1 :=
              fun before => List.countP_cons_of_pos emits
            simp [strayBranch?_cons, ih tail, head.leadsTo_iff unique, count, Nat.add_assoc,
              Nat.add_comm 1]
      · rw [List.filter_cons_of_neg emits] at becomes
        cases item with
        | label name => simp [ih becomes, Item.LeadsTo]
        | instruction instruction => exact absurd rfl emits
        | branchIfClear flag label => exact absurd rfl emits

theorem withLabels_eq_error_iff {instructions : List Instruction} {labels : Table String}
    {cause : ProgramError} :
    Program.withLabels instructions labels = .error cause ↔
      ∃ pc target, Program.strayBranch? instructions.length 0 instructions = some (pc, target) ∧
        .branchOutOfRange pc target instructions.length = cause := by
  unfold Program.withLabels
  split
  · next pc target stray => simp [stray]
  · next clear => simp [clear]

theorem withLabels_eq_ok_iff {instructions : List Instruction} {labels : Table String}
    {program : Program} :
    Program.withLabels instructions labels = .ok program ↔
      Program.strayBranch? instructions.length 0 instructions = none ∧
        program.instructions = instructions ∧ program.labels = labels := by
  unfold Program.withLabels
  split
  · next pc target stray => simp [stray]
  · next clear =>
      rcases program with ⟨others, otherLabels, inside⟩
      simp [clear, eq_comm]

/-! ## Listed labels -/

/-- A table lists the greatest of the names of each instruction that has a name, and nothing for
the others. -/
structure Lists (labels : Table String) (places : List (String × Nat)) : Prop where
  greatest : ∀ pc name, labels.get? pc = some name ->
    IsGreatest { other | (other, pc) ∈ places } name
  nothing : ∀ pc, labels.get? pc = none -> ∀ name, (name, pc) ∉ places

theorem get?_listOne_of_ne {labels : Table String} {name : String} {pc other : Nat}
    (elsewhere : other ≠ pc) : (listOne labels (name, pc)).get? other = labels.get? other := by
  unfold listOne
  split
  · split
    · rw [Table.get?_insert, if_neg elsewhere]
    · rfl
  · rw [Table.get?_insert, if_neg elsewhere]

theorem Lists.listOne_self {labels : Table String} (lists : Lists labels places) (name : String)
    (pc : Nat) : ∃ listed, (listOne labels (name, pc)).get? pc = some listed ∧
      IsGreatest (insert name { other | (other, pc) ∈ places }) listed := by
  cases found : labels.get? pc with
  | none =>
      have only : { other | (other, pc) ∈ places } = ∅ :=
        Set.eq_empty_of_forall_notMem (lists.nothing pc found)
      refine ⟨name, by simp [listOne, found], ?_⟩
      rw [only, insert_empty_eq]
      exact isGreatest_singleton
  | some old =>
      refine ⟨max name old, ?_, (lists.greatest pc old found).insert name⟩
      by_cases smaller : old < name
      · rw [max_eq_left smaller.le, listOne, found]
        simp only [if_pos smaller, Table.get?_insert, if_true]
      · rw [max_eq_right (not_lt.mp smaller), listOne, found]
        simp only [if_neg smaller, found]

theorem Lists.listOne {labels : Table String} (lists : Lists labels places) (entry : String × Nat) :
    Lists (listOne labels entry) (entry :: places) := by
  rcases entry with ⟨name, pc⟩
  have here : { other | (other, pc) ∈ (name, pc) :: places } =
      insert name { other | (other, pc) ∈ places } := by
    ext other
    simp
  rcases lists.listOne_self name pc with ⟨listed, found, isGreatest⟩
  refine ⟨?_, ?_⟩
  · intro place other listedThere
    by_cases same : place = pc
    · rw [same, found] at listedThere
      rw [same, here, ← Option.some.inj listedThere]
      exact isGreatest
    · rw [get?_listOne_of_ne same] at listedThere
      simpa [same] using lists.greatest place other listedThere
  · intro place unlisted other
    by_cases same : place = pc
    · rw [same, found] at unlisted
      cases unlisted
    · rw [get?_listOne_of_ne same] at unlisted
      simpa [same] using lists.nothing place unlisted other

theorem Lists.foldl {labels : Table String} {seen : List (String × Nat)} (lists : Lists labels seen)
    (places : List (String × Nat)) :
    Lists (places.foldl Assembly.listOne labels) (places.reverse ++ seen) := by
  induction places generalizing labels seen with
  | nil => exact lists
  | cons entry rest ih =>
      have later := ih (lists.listOne entry)
      rwa [List.foldl_cons, List.reverse_cons, List.append_assoc]

theorem lists_empty : Lists .empty [] := by
  constructor
  · intro pc name impossible
    cases impossible
  · intro pc _ name
    exact List.not_mem_nil

theorem lists_listedLabels (places : List (String × Nat)) : Lists (listedLabels places) places := by
  have all : Lists (listedLabels places) (places.reverse ++ []) := lists_empty.foldl places
  rw [List.append_nil] at all
  constructor
  · intro pc name listed
    simpa using all.greatest pc name listed
  · intro pc unlisted name
    simpa using all.nothing pc unlisted name

/-! ## Outcomes -/

/-- Where no label is placed twice, names stand for the one place that they have. -/
theorem lookup_eq_places {items : List Item} (distinct : Distinct items) :
    (fun label target => (placements 0 items).lookup label = some target) = Places items := by
  funext label target
  exact propext (lookup_placements distinct)

theorem places_unique {items : List Item} (distinct : Distinct items) (label : String)
    (first second : Nat) (firstPlaces : Places items label first)
    (secondPlaces : Places items label second) : first = second := by
  rw [← lookup_placements distinct] at firstPlaces secondPlaces
  exact Option.some.inj (firstPlaces.symm.trans secondPlaces)

theorem defined_iff {items : List Item} :
    (∀ item ∈ items, item.Defined items) ↔ ∀ label pc, ¬ FirstUndefined items label pc := by
  have detected : ∀ (before : List Item) (item : Item),
      (∃ fault : String × Nat, item.reference? = some fault.1 ∧ .label fault.1 ∉ items ∧
        emitted before = fault.2) ↔ ¬ item.Defined items := by
    intro before item
    simp [Item.Defined]
  rw [forall_passed_iff detected, Prod.forall]
  rfl

theorem confined_iff {items : List Item} :
    (∀ item ∈ items, item.Confined items) ↔ ∀ pc target, ¬ FirstStray items pc target := by
  have detected : ∀ (before : List Item) (item : Item),
      (∃ fault : Nat × Nat, item.LeadsTo (Places items) fault.2 ∧ emitted items ≤ fault.2 ∧
        emitted before = fault.1) ↔ ¬ item.Confined items := by
    intro before item
    simp [Item.Confined]
  rw [forall_passed_iff detected, Prod.forall]
  rfl

/-- What cannot be resolved is the first reference to a label that is placed nowhere. -/
theorem resolve_placements_eq_error_iff {items : List Item} {cause : ProgramError} :
    resolve (placements 0 items) 0 items = .error cause ↔
      ∃ label pc, FirstUndefined items label pc ∧ .undefinedLabel label pc = cause := by
  simp only [resolve_eq_error_iff, ne_eq, lookup_placements_eq_none, not_not, Nat.zero_add]
  constructor
  · intro ⟨before, item, after, split, ⟨label, refers, unplaced, same⟩, defined⟩
    exact ⟨label, emitted before, ⟨before, item, after, split, ⟨refers, unplaced, rfl⟩, defined⟩,
      same⟩
  · intro ⟨label, pc, ⟨before, item, after, split, ⟨refers, unplaced, count⟩, defined⟩, same⟩
    exact ⟨before, item, after, split, ⟨label, refers, unplaced, count ▸ same⟩, defined⟩

variable {items : List Item} {instructions : List Instruction}

theorem resolve_placements_eq_ok_iff (distinct : Distinct items) :
    resolve (placements 0 items) 0 items = .ok instructions ↔
      List.Forall₂ (Item.Becomes (Places items)) (items.filter Item.emits) instructions := by
  rw [resolve_eq_ok_iff, lookup_eq_places distinct]

theorem length_eq_emitted
    (becomes : List.Forall₂ (Item.Becomes placed) (items.filter Item.emits) instructions) :
    instructions.length = emitted items := by
  rw [← becomes.length_eq, emitted, List.countP_eq_length_filter]

theorem strayBranch?_iff (distinct : Distinct items)
    (becomes : List.Forall₂ (Item.Becomes (Places items)) (items.filter Item.emits) instructions)
    {pc target : Nat} :
    Program.strayBranch? instructions.length 0 instructions = some (pc, target) ↔
      FirstStray items pc target := by
  rw [length_eq_emitted becomes, strayBranch?_eq_some_iff (places_unique distinct) becomes]
  simp only [Nat.zero_add]
  rfl

theorem assemble_of_repeated {name : String} (repeated : FirstRepeated items name) :
    assemble items = .error (.duplicateLabel name) := by
  simp only [assemble, firstRepeated_iff.mp repeated]
  rfl

theorem assemble_of_distinct (distinct : Distinct items) :
    assemble items = (resolve (placements 0 items) 0 items).bind fun instructions =>
      Program.withLabels instructions (listedLabels (placements 0 items)) := by
  simp only [assemble, distinct_iff.mp distinct]
  rfl

theorem exists_firstRepeated_iff : (∃ name, FirstRepeated items name) ↔ ¬ Distinct items := by
  simp only [distinct_iff, firstRepeated_iff]
  exact Option.ne_none_iff_exists'.symm

/-- A source without repeated labels has a reference that is undefined, or else resolves to the
instructions that its items become. -/
theorem assemble_cases (distinct : Distinct items) :
    (∃ label pc, FirstUndefined items label pc ∧
      assemble items = .error (.undefinedLabel label pc)) ∨
    (∀ item ∈ items, item.Defined items) ∧ ∃ instructions,
      List.Forall₂ (Item.Becomes (Places items)) (items.filter Item.emits) instructions ∧
      assemble items = Program.withLabels instructions (listedLabels (placements 0 items)) := by
  rw [assemble_of_distinct distinct]
  cases ended : resolve (placements 0 items) 0 items with
  | error cause =>
      rcases resolve_placements_eq_error_iff.mp ended with ⟨label, pc, undefined, rfl⟩
      exact .inl ⟨label, pc, undefined, rfl⟩
  | ok instructions =>
      refine .inr ⟨?_, instructions, (resolve_placements_eq_ok_iff distinct).mp ended, rfl⟩
      rw [defined_iff]
      intro label pc undefined
      have failed := resolve_placements_eq_error_iff.mpr ⟨label, pc, undefined, rfl⟩
      cases ended.symm.trans failed

/-- A repeated label is reported before anything else. -/
theorem distinct_of_assemble
    (unreported : ∀ name, assemble items ≠ .error (.duplicateLabel name)) : Distinct items := by
  by_contra repeats
  rcases exists_firstRepeated_iff.mpr repeats with ⟨name, repeated⟩
  exact unreported name (assemble_of_repeated repeated)

theorem assemble_eq_duplicateLabel_iff {name : String} :
    assemble items = .error (.duplicateLabel name) ↔ FirstRepeated items name := by
  refine ⟨?_, assemble_of_repeated⟩
  intro failed
  by_cases distinct : Distinct items
  · rcases assemble_cases distinct with ⟨_, _, _, ended⟩ | ⟨_, instructions, _, ended⟩
    · cases ended.symm.trans failed
    · rcases withLabels_eq_error_iff.mp (ended.symm.trans failed) with ⟨_, _, _, impossible⟩
      cases impossible
  · rcases exists_firstRepeated_iff.mpr distinct with ⟨other, repeated⟩
    cases (assemble_of_repeated repeated).symm.trans failed
    exact repeated

theorem assemble_eq_undefinedLabel_iff (distinct : Distinct items) {label : String} {pc : Nat} :
    assemble items = .error (.undefinedLabel label pc) ↔ FirstUndefined items label pc := by
  constructor
  · intro failed
    rcases assemble_cases distinct with ⟨_, _, undefined, ended⟩ | ⟨_, instructions, _, ended⟩
    · cases ended.symm.trans failed
      exact undefined
    · rcases withLabels_eq_error_iff.mp (ended.symm.trans failed) with ⟨_, _, _, impossible⟩
      cases impossible
  · intro undefined
    have unresolved := resolve_placements_eq_error_iff.mpr ⟨label, pc, undefined, rfl⟩
    rw [assemble_of_distinct distinct, unresolved]
    rfl

theorem assemble_eq_branchOutOfRange_iff (distinct : Distinct items) {pc target length : Nat} :
    assemble items = .error (.branchOutOfRange pc target length) ↔
      (∀ item ∈ items, item.Defined items) ∧ FirstStray items pc target ∧
        length = emitted items := by
  rcases assemble_cases distinct with ⟨label, place, undefined, ended⟩ |
    ⟨defined, instructions, becomes, ended⟩
  · constructor
    · intro failed
      cases ended.symm.trans failed
    · intro ⟨defined, _⟩
      exact absurd undefined (defined_iff.mp defined label place)
  · rw [ended, withLabels_eq_error_iff]
    constructor
    · intro ⟨_, _, stray, same⟩
      cases same
      exact ⟨defined, (strayBranch?_iff distinct becomes).mp stray, length_eq_emitted becomes⟩
    · intro ⟨_, stray, same⟩
      refine ⟨pc, target, (strayBranch?_iff distinct becomes).mpr stray, ?_⟩
      rw [same, length_eq_emitted becomes]

theorem exists_assemble_iff (distinct : Distinct items) :
    (∃ program, assemble items = .ok program) ↔
      (∀ item ∈ items, item.Defined items) ∧ ∀ item ∈ items, item.Confined items := by
  rcases assemble_cases distinct with ⟨label, place, undefined, ended⟩ |
    ⟨defined, instructions, becomes, ended⟩
  · constructor
    · intro ⟨program, assembled⟩
      cases ended.symm.trans assembled
    · intro ⟨defined, _⟩
      exact absurd undefined (defined_iff.mp defined label place)
  · simp only [ended, confined_iff, ← strayBranch?_iff distinct becomes]
    constructor
    · intro ⟨program, assembled⟩
      rw [(withLabels_eq_ok_iff.mp assembled).1]
      exact ⟨defined, fun _ _ impossible => nomatch impossible⟩
    · intro ⟨_, clear⟩
      cases outcome : Program.withLabels instructions (listedLabels (placements 0 items)) with
      | ok program => exact ⟨program, rfl⟩
      | error cause =>
          rcases withLabels_eq_error_iff.mp outcome with ⟨pc, target, stray, _⟩
          exact absurd stray (clear pc target)

/-- The program that is assembled is the one that the source describes. -/
theorem describes_of_assemble (distinct : Distinct items) {program : Program}
    (assembled : assemble items = .ok program) : Describes items program := by
  rcases assemble_cases distinct with ⟨_, _, _, ended⟩ | ⟨_, instructions, becomes, ended⟩
  · cases ended.symm.trans assembled
  · rcases withLabels_eq_ok_iff.mp (ended.symm.trans assembled) with ⟨_, rfl, labels⟩
    have lists := lists_listedLabels (placements 0 items)
    rw [← labels] at lists
    refine ⟨becomes, ?_, ?_⟩
    · intro pc
      simp only [places_iff]
      constructor
      · intro labelled
        rcases Option.isSome_iff_exists.mp labelled with ⟨name, listed⟩
        exact ⟨name, (lists.greatest pc name listed).1⟩
      · intro ⟨name, placed⟩
        rw [Option.isSome_iff_ne_none]
        intro unlisted
        exact lists.nothing pc unlisted name placed
    · intro pc name listed
      simp only [places_iff]
      exact lists.greatest pc name listed

/-- Assembling resolves labels.  It reports the first label that is placed again just if some
label is placed twice.  Otherwise it reports the first reference to a label that is placed
nowhere, if there is one, and otherwise the first branch that leads past the last instruction, be
the target given by a number or by a label at the end.  In all other cases, and in no others,
there is a program, and it is the one that the source describes. -/
theorem assemble_resolves_labels (items : List Item) :
    (∀ name, assemble items = .error (.duplicateLabel name) ↔ FirstRepeated items name) ∧
    ((∃ name, FirstRepeated items name) ↔ ∃ name, 2 ≤ items.count (.label name)) ∧
    (∀ label pc, assemble items = .error (.undefinedLabel label pc) ↔
      Distinct items ∧ FirstUndefined items label pc) ∧
    (∀ pc target length, assemble items = .error (.branchOutOfRange pc target length) ↔
      Distinct items ∧ (∀ item ∈ items, item.Defined items) ∧ FirstStray items pc target ∧
        length = emitted items) ∧
    ((∃ program, assemble items = .ok program) ↔
      Distinct items ∧ (∀ item ∈ items, item.Defined items) ∧
        ∀ item ∈ items, item.Confined items) ∧
    ∀ program, assemble items = .ok program -> Describes items program := by
  refine ⟨fun name => assemble_eq_duplicateLabel_iff, ?_, ?_, ?_, ?_, ?_⟩
  · simp only [exists_firstRepeated_iff, Distinct, not_forall, Nat.not_le]
    exact Iff.rfl
  · intro label pc
    constructor
    · intro failed
      have distinct : Distinct items := distinct_of_assemble (by simp [failed])
      exact ⟨distinct, (assemble_eq_undefinedLabel_iff distinct).mp failed⟩
    · intro ⟨distinct, undefined⟩
      exact (assemble_eq_undefinedLabel_iff distinct).mpr undefined
  · intro pc target length
    constructor
    · intro failed
      have distinct : Distinct items := distinct_of_assemble (by simp [failed])
      exact ⟨distinct, (assemble_eq_branchOutOfRange_iff distinct).mp failed⟩
    · intro ⟨distinct, stray⟩
      exact (assemble_eq_branchOutOfRange_iff distinct).mpr stray
  · constructor
    · intro ⟨program, assembled⟩
      have distinct : Distinct items := distinct_of_assemble (by simp [assembled])
      exact ⟨distinct, (exists_assemble_iff distinct).mp ⟨program, assembled⟩⟩
    · intro ⟨distinct, faultless⟩
      exact (exists_assemble_iff distinct).mpr faultless
  · intro program assembled
    exact describes_of_assemble (distinct_of_assemble (by simp [assembled])) assembled

/-- A label at the end stands for no instruction. -/
example : assemble [.label "again", .branchIfClear .zero "again", .branchIfClear .carry "end",
    .label "end"] = .error (.branchOutOfRange 1 2 2) := by
  rfl

end Assembly
end SymbolicMachine
