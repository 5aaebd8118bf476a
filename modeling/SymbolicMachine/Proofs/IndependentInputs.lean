import Mathlib.Data.List.Flatten
import Mathlib.Data.List.Nodup
import Mathlib.Data.List.Perm.Subperm
import SymbolicMachine.Proofs.TestVectors

namespace SymbolicMachine

/-!
# Independent inputs

Words of fresh variables have no variable in common, with each other or within themselves,
whatever a session does between drawing one and the next.  They can therefore be given values
independently: assignments that are made for single words and extended by each other, in
whichever order, give every one of the words its own value.  The inputs of a verification are
drawn in this way, so no combination of values of its inputs is left out.

Both parts of independence are needed.  An extension overrides what was there, so the order would
show if two words shared a variable, and a bit that is not a plain variable is passed over.
-/

/-! ## Look-ups -/

namespace Table

variable {α : Type} {table : Table α} {entries : List (Nat × α)} {key : Nat} {value : α}

/-- The last entry of a number holds, and where there is none what was there before. -/
theorem get?_insertAll (table : Table α) (entries : List (Nat × α)) (key : Nat) :
    (table.insertAll entries).get? key = (entries.reverse.lookup key).or (table.get? key) := by
  induction entries generalizing table with
  | nil => rfl
  | cons entry rest ih =>
      rcases entry with ⟨number, value⟩
      have step : table.insertAll ((number, value) :: rest) =
          (table.insert number value).insertAll rest := rfl
      rw [step, ih, get?_insert, List.reverse_cons, List.lookup_append, Option.or_assoc]
      by_cases same : key = number
      · simp [same]
      · have elsewhere : (key == number) = false := beq_eq_false_iff_ne.mpr same
        simp [List.lookup_cons, elsewhere, same]

theorem get?_insertAll_of_mem (distinct : (entries.map Prod.fst).Nodup)
    (member : (key, value) ∈ entries) : (table.insertAll entries).get? key = some value := by
  have reversed : (entries.reverse.map Prod.fst).Nodup := by
    rwa [List.map_reverse, List.nodup_reverse]
  have found : entries.reverse.lookup key = some value :=
    (lookup_eq_some_iff_mem reversed).mpr (List.mem_reverse.mpr member)
  rw [get?_insertAll, found, Option.some_or]

theorem get?_insertAll_of_notMem (absent : key ∉ entries.map Prod.fst) :
    (table.insertAll entries).get? key = table.get? key := by
  have nowhere : entries.reverse.lookup key = none := by
    rw [List.lookup_eq_none_iff]
    intro entry member
    rw [bne_iff_ne]
    rintro rfl
    exact absent (List.mem_map_of_mem (List.mem_reverse.mp member))
  rw [get?_insertAll, nowhere, Option.none_or]

end Table

namespace Assignment

variable {ids : List Nat}

/-- What the second assignment says overrides the first. -/
theorem get?_extend (first second : Assignment) (id : Nat) :
    (first.extend second).get? id = (second.get? id).or (first.get? id) := by
  cases found : second.get? id with
  | none =>
      apply Table.get?_insertAll_of_notMem
      intro member
      have there := Table.mem_keys.mp member
      rw [found] at there
      cases there
  | some value =>
      have distinct := second.nodup_keys
      exact Table.get?_insertAll_of_mem distinct ((lookup_eq_some_iff_mem distinct).mp found)

/-- The entries by which a word of variables takes a value: one for each place. -/
theorem ofValue_eq (ids : List Nat) (value : Nat) :
    ofValue ⟨ids.map .var⟩ value = .ofList
      ((ids.zip (List.range ids.length)).map fun pair => (pair.1, value.testBit pair.2)) := by
  have width : (ids.map Bit.var).length = ids.length := List.length_map _
  rw [ofValue, ofWords, Word.width, width, Word.constant, List.zip_map, List.filterMap_map]
  -- Both halves of a place are there, so nothing is passed over.
  exact congrArg Table.ofList (congrFun List.filterMap_eq_map _)

theorem keys_ofValue (ids : List Nat) (value : Nat) :
    (((ids.zip (List.range ids.length)).map fun pair => (pair.1, value.testBit pair.2)).map
      Prod.fst) = ids := by
  rw [List.map_map]
  exact List.map_fst_zip (Nat.le_of_eq List.length_range.symm)

theorem get?_ofValue (distinct : ids.Nodup) (value : Nat) {place id : Nat}
    (here : ids[place]? = some id) :
    (ofValue ⟨ids.map .var⟩ value).get? id = some (value.testBit place) := by
  rw [ofValue_eq]
  apply Table.get?_insertAll_of_mem
  · rwa [keys_ofValue]
  · have inside : place < ids.length := (List.getElem?_eq_some_iff.mp here).1
    have paired : (ids.zip (List.range ids.length))[place]? = some (id, place) :=
      List.getElem?_zip_eq_some.mpr ⟨here, List.getElem?_range inside⟩
    exact List.mem_map.mpr ⟨(id, place), List.mem_of_getElem? paired, rfl⟩

theorem get?_ofValue_of_notMem (value : Nat) {id : Nat} (absent : id ∉ ids) :
    (ofValue ⟨ids.map .var⟩ value).get? id = none := by
  rw [ofValue_eq, Table.ofList, Table.get?_insertAll_of_notMem]
  · rfl
  · rwa [keys_ofValue]

end Assignment

/-! ## Words without common variables -/

/-- Words of plain variables none of which occurs twice, in one word or in two. -/
structure Independent (words : List Word) : Prop where
  plain : ∀ word ∈ words, ∀ bit ∈ word.bits, ∃ id, bit = .var id
  distinct : (words.flatMap Word.support).Nodup

theorem Word.eq_of_plain {word : Word} (plain : ∀ bit ∈ word.bits, ∃ id, bit = .var id) :
    word = ⟨word.support.map .var⟩ := by
  rcases word with ⟨bits⟩
  rw [Word.mk.injEq, Word.support]
  induction bits with
  | nil => rfl
  | cons bit rest ih =>
      rw [List.forall_mem_cons] at plain
      rcases plain with ⟨⟨id, rfl⟩, restPlain⟩
      rw [List.flatMap_cons, List.map_append, ← ih restPlain]
      rfl

namespace Independent

variable {word : Word} {words part : List Word}

/-- Some of the words, in whichever order, are as independent as all of them. -/
theorem of_subperm (independent : Independent words) (chosen : part.Subperm words) :
    Independent part where
  plain word member := independent.plain word (chosen.subset member)
  distinct := by
    rcases chosen with ⟨listed, reordered, within⟩
    have distinct := independent.distinct.sublist (within.flatMap Word.support)
    exact (reordered.flatMap_right Word.support).nodup_iff.mp distinct

theorem tail (independent : Independent (word :: words)) : Independent words :=
  independent.of_subperm (List.sublist_cons_self word words).subperm

theorem nodup_support (independent : Independent words) (member : word ∈ words) :
    word.support.Nodup :=
  (List.nodup_flatMap.mp independent.distinct).1 word member

theorem disjoint_head (independent : Independent (word :: words)) {id : Nat}
    (here : id ∈ word.support) : id ∉ words.flatMap Word.support := by
  have distinct := independent.distinct
  rw [List.flatMap_cons] at distinct
  exact List.disjoint_of_nodup_append distinct here

theorem eq_variables (independent : Independent words) (member : word ∈ words) :
    word = ⟨word.support.map .var⟩ :=
  Word.eq_of_plain (independent.plain word member)

end Independent

/-! ## Values for several words -/

namespace Assignment

/-- Make words of variables take values, one word after the other. -/
def withValues (start : Assignment) (settings : List (Word × Nat)) : Assignment :=
  settings.foldl (fun assignment setting => assignment.extend (.ofValue setting.1 setting.2)) start

variable {settings : List (Word × Nat)} {id : Nat}

theorem get?_withValues_of_notMem (start : Assignment)
    (independent : Independent (settings.map Prod.fst))
    (absent : id ∉ (settings.map Prod.fst).flatMap Word.support) :
    (start.withValues settings).get? id = start.get? id := by
  induction settings generalizing start with
  | nil => rfl
  | cons setting rest ih =>
      rw [List.map_cons, List.flatMap_cons, List.mem_append, not_or] at absent
      have untouched : (ofValue setting.1 setting.2).get? id = none := by
        rw [independent.eq_variables List.mem_cons_self]
        exact get?_ofValue_of_notMem setting.2 absent.1
      have later : ((start.extend (ofValue setting.1 setting.2)).withValues rest).get? id =
          (start.extend (ofValue setting.1 setting.2)).get? id := ih _ independent.tail absent.2
      rw [get?_extend, untouched, Option.none_or] at later
      exact later

/-- Each word gets its own value: what is set before is overridden, and what is set afterwards
belongs to other words. -/
theorem get?_withValues (start : Assignment)
    (independent : Independent (settings.map Prod.fst))
    {setting : Word × Nat} (member : setting ∈ settings) {place : Nat}
    (here : setting.1.support[place]? = some id) :
    (start.withValues settings).get? id = some (setting.2.testBit place) := by
  induction settings generalizing start with
  | nil => cases member
  | cons head rest ih =>
      rcases List.mem_cons.mp member with rfl | later
      · have apart := independent.disjoint_head (List.mem_of_getElem? here)
        have set : (ofValue setting.1 setting.2).get? id = some (setting.2.testBit place) := by
          rw [independent.eq_variables List.mem_cons_self]
          exact get?_ofValue (independent.nodup_support List.mem_cons_self) setting.2 here
        have kept : ((start.extend (ofValue setting.1 setting.2)).withValues rest).get? id =
            (start.extend (ofValue setting.1 setting.2)).get? id :=
          get?_withValues_of_notMem _ independent.tail apart
        rw [get?_extend, set, Option.some_or] at kept
        exact kept
      · exact ih _ independent.tail later

end Assignment

namespace Interpretation

variable {assignment : Assignment} {word : Word}

/-- A word of variables denotes the number whose binary digits they have. -/
theorem denotes_of_digits (number : Nat) (plain : word = ⟨word.support.map .var⟩)
    (digits : ∀ place id, word.support[place]? = some id ->
      assignment.get? id = some (number.testBit place)) :
    (ofAssignment assignment).Denotes word.width word (number % 2 ^ word.width) := by
  have bits : word.bits = word.support.map .var := congrArg Word.bits plain
  have width : word.width = word.support.length := by rw [Word.width, bits, List.length_map]
  refine ⟨(List.range word.width).map number.testBit, ?_, by simp,
    Word.ofBools_testBit number word.width⟩
  rw [bits, List.forall₂_map_left_iff, List.forall₂_map_right_iff, List.forall₂_iff_get]
  refine ⟨by rw [List.length_range, width], ?_⟩
  intro place inside _
  rw [List.get_eq_getElem, List.get_eq_getElem, List.getElem_range]
  exact digits place _ (List.getElem?_eq_getElem inside)

end Interpretation

namespace Independent

variable {words : List Word} {settings : List (Word × Nat)}

/-- Some of several independent words, in whichever order, take whatever values they are given. -/
theorem evaluateWord_withValues (independent : Independent words)
    (chosen : (settings.map Prod.fst).Subperm words) (start : Assignment)
    {setting : Word × Nat} (member : setting ∈ settings)
    (narrow : setting.1.width ≤ Word.knownBits) :
    (start.withValues settings).evaluateWord setting.1 =
      some (setting.2 % 2 ^ setting.1.width) := by
  have part := independent.of_subperm chosen
  have denotes := Interpretation.denotes_of_digits setting.2
    (part.eq_variables (List.mem_map_of_mem member))
    fun place id here => Assignment.get?_withValues start part member here
  exact denotes.evaluateWord narrow

end Independent

/-! ## Fresh words -/

theorem Word.width_fresh (session : Session) (width : Nat) :
    ((Word.fresh width).run session).1.width = width :=
  (List.length_map _).trans List.length_range'

theorem Word.support_fresh (session : Session) (width : Nat) :
    ((Word.fresh width).run session).1.support = List.range' session.nextVariable width := by
  have bits : ((Word.fresh width).run session).1.bits =
      (List.range' session.nextVariable width).map .var := rfl
  rw [Word.support, bits, List.flatMap_map]
  exact List.flatMap_singleton' _

/-- Words that a session hands out one after the other.  Between two of them it may go on in any
way that takes no variable back. -/
inductive Draws : Session -> List Word -> Prop where
  | nil (session : Session) : Draws session []
  | draw {session later : Session} {words : List Word} (width : Nat)
      (onward : ((Word.fresh width).run session).2.nextVariable ≤ later.nextVariable)
      (rest : Draws later words) : Draws session (((Word.fresh width).run session).1 :: words)

namespace Draws

variable {session : Session} {words : List Word}

theorem le_of_mem (draws : Draws session words) {id : Nat}
    (member : id ∈ words.flatMap Word.support) : session.nextVariable ≤ id := by
  induction draws with
  | nil => cases member
  | draw width onward rest ih =>
      rw [List.flatMap_cons, List.mem_append, Word.support_fresh, List.mem_range'_1] at member
      rcases member with drawn | later
      · exact drawn.1
      · exact (Nat.le_add_right _ width).trans (onward.trans (ih later))

/-- What is drawn later lies above what has been drawn. -/
theorem independent (draws : Draws session words) : Independent words := by
  induction draws with
  | nil => exact ⟨nofun, List.nodup_nil⟩
  | @draw session later words width onward rest ih =>
      constructor
      · rw [List.forall_mem_cons]
        refine ⟨?_, ih.plain⟩
        intro bit member
        rcases List.mem_map.mp member with ⟨id, _, rfl⟩
        exact ⟨id, rfl⟩
      · rw [List.flatMap_cons, Word.support_fresh]
        refine List.Nodup.append List.nodup_range' ih.distinct ?_
        intro id drawn again
        have below : id < session.nextVariable + width := (List.mem_range'_1.mp drawn).2
        exact Nat.not_le_of_lt below (onward.trans (rest.le_of_mem again))

/-- In particular a session may do nothing else in between. -/
theorem mapM_fresh (session : Session) (widths : List Nat) :
    Draws session ((widths.mapM Word.fresh).run session).1 := by
  induction widths generalizing session with
  | nil => exact .nil session
  | cons width rest ih =>
      rw [List.mapM_cons]
      exact .draw width (Nat.le_refl _) (ih _)

end Draws

theorem width_mapM_fresh (session : Session) (widths : List Nat) :
    ((widths.mapM Word.fresh).run session).1.map Word.width = widths := by
  induction widths generalizing session with
  | nil => rfl
  | cons width rest ih =>
      rw [List.mapM_cons]
      exact congrArg₂ List.cons (Word.width_fresh session width) (ih _)

/-! ## The inputs of a verification -/

namespace Inputs

/-- The inputs are drawn in a row. -/
theorem words_symbolic (session : Session) :
    (InputName.all.map fun name => ((symbolic.run session).1.get name).toWord) =
      (((InputName.all.map InputName.width).mapM Word.fresh).run session).1 := rfl

theorem wellFormed_symbolic (session : Session) : (symbolic.run session).1.WellFormed := by
  have widths := width_mapM_fresh session (InputName.all.map InputName.width)
  rw [← words_symbolic, List.map_map, List.map_inj_left] at widths
  intro name
  exact widths name (InputName.mem_all name)

theorem independent_symbolic (session : Session) :
    Independent (InputName.all.map fun name => ((symbolic.run session).1.get name).toWord) := by
  rw [words_symbolic]
  exact (Draws.mapM_fresh session _).independent

theorem assignment_eq (inputs : Inputs) (value : InputName -> Nat) :
    inputs.assignment (fun name => some (value name)) =
      Assignment.withValues .empty
        (InputName.all.map fun name => ((inputs.get name).toWord, value name)) := rfl

/-- No combination of values of the inputs is left out. -/
theorem evaluateSignal_symbolic (session : Session) {value : InputName -> Nat}
    (fits : ∀ name, value name < 2 ^ name.width) (name : InputName) :
    ((symbolic.run session).1.assignment fun other => some (value other)).evaluateSignal
      ((symbolic.run session).1.get name) = some (value name) := by
  have width := wellFormed_symbolic session name
  have narrow : ((symbolic.run session).1.get name).toWord.width ≤ Word.knownBits := by
    rw [width]
    cases name <;> decide
  have all : ((InputName.all.map fun name =>
      (((symbolic.run session).1.get name).toWord, value name)).map Prod.fst).Subperm
        (InputName.all.map fun name => ((symbolic.run session).1.get name).toWord) := by
    rw [List.map_map]
    exact .refl _
  have evaluates := (independent_symbolic session).evaluateWord_withValues all .empty
    (List.mem_map_of_mem (InputName.mem_all name)) narrow
  rw [width, Nat.mod_eq_of_lt (fits name)] at evaluates
  rw [assignment_eq, Assignment.evaluateSignal_eq, ← Assignment.evaluateWord_eq]
  exact evaluates

end Inputs

/-! ## Fresh inputs -/

/-- Words that are drawn from a session, be it one after the other or with other constructions in
between, are made of variables that are all distinct.  So if some of those that are narrow
enough to have a number are given numbers, each by extending an assignment and in whichever
order, then each of them evaluates to its own number within its width.  The inputs of a
verification are such words, and every combination of values that fit them is reached. -/
theorem fresh_words_assignable :
    (∀ (session : Session) (widths : List Nat),
      Draws session ((widths.mapM Word.fresh).run session).1 ∧
        ((widths.mapM Word.fresh).run session).1.map Word.width = widths) ∧
    (∀ (session : Session) (words : List Word), Draws session words ->
      Independent words ∧
      ∀ (settings : List (Word × Nat)), (settings.map Prod.fst).Subperm words ->
        ∀ (start : Assignment), ∀ setting ∈ settings, setting.1.width ≤ Word.knownBits ->
          (start.withValues settings).evaluateWord setting.1 =
            some (setting.2 % 2 ^ setting.1.width)) ∧
    ∀ (session : Session), (Inputs.symbolic.run session).1.WellFormed ∧
      Independent
        (InputName.all.map fun name => ((Inputs.symbolic.run session).1.get name).toWord) ∧
      ∀ (value : InputName -> Nat), (∀ name, value name < 2 ^ name.width) ->
        ∀ name, ((Inputs.symbolic.run session).1.assignment fun other =>
          some (value other)).evaluateSignal ((Inputs.symbolic.run session).1.get name) =
            some (value name) := by
  refine ⟨?_, ?_, ?_⟩
  · intro session widths
    exact ⟨.mapM_fresh session widths, width_mapM_fresh session widths⟩
  · intro session words draws
    refine ⟨draws.independent, ?_⟩
    intro settings chosen start setting member narrow
    exact draws.independent.evaluateWord_withValues chosen start member narrow
  · intro session
    refine ⟨Inputs.wellFormed_symbolic session, Inputs.independent_symbolic session, ?_⟩
    intro value fits name
    exact Inputs.evaluateSignal_symbolic session fits name

/-- Of three words the first and the last are set, the last one first and both to numbers that
are too large for them.  The word between them is too wide to have a number. -/
theorem fresh_words_assignable_reversed :
    let first : Word := ⟨[.var 5, .var 6, .var 7]⟩
    let last : Word := ⟨(List.range' 78 8).map .var⟩
    let assignment := Assignment.withValues .empty [(last, 300), (first, 13)]
    assignment.evaluateWord last = some 44 ∧ assignment.evaluateWord first = some 5 ∧
      ∀ name, ((Inputs.symbolic.run {}).1.assignment fun other =>
        some other.width).evaluateSignal ((Inputs.symbolic.run {}).1.get name) =
          some name.width := by
  intro first last assignment
  have drawn := (fresh_words_assignable.1 { nextVariable := 5 } [3, 70, 8]).1
  have chosen : [last, first].Subperm
      (([3, 70, 8].mapM Word.fresh).run { nextVariable := 5 }).1 :=
    ⟨[first, last], .swap last first [], ((List.Sublist.refl [last]).cons _).cons_cons first⟩
  have evaluates := (fresh_words_assignable.2.1 _ _ drawn).2 [(last, 300), (first, 13)] chosen
    .empty
  have lastEvaluates := evaluates (last, 300) List.mem_cons_self (by decide)
  have firstEvaluates := evaluates (first, 13) (.tail _ (.head _)) (by decide)
  have lastRemainder : 300 % 2 ^ last.width = 44 := by decide
  have firstRemainder : 13 % 2 ^ first.width = 5 := by decide
  rw [lastRemainder] at lastEvaluates
  rw [firstRemainder] at firstEvaluates
  refine ⟨lastEvaluates, firstEvaluates, ?_⟩
  exact (fresh_words_assignable.2.2 {}).2.2 InputName.width fun name => Nat.lt_two_pow_self

end SymbolicMachine
