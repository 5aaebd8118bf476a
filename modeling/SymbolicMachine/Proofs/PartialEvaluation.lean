import Mathlib.Algebra.BigOperators.Ring.Finset
import SymbolicMachine.Proofs.Arithmetic

namespace SymbolicMachine

/-!
# The laws of partial evaluation

An evaluation under an assignment that leaves variables open may give no answer.  What it
answers is final: more assigned variables do not change it, and it is the value however the
open variables are filled in.  It looks at no variables but those that occur, and gives an
answer if all of these are assigned.

`LawfulEvaluation` says this of anything that is evaluated and has a value under every
valuation.  It holds of bits, where the one delicate gate is a conjunction that is decided by
either operand while the other is open, and of words that are narrow enough to be read as a
number.
-/

namespace Assignment

/-- Whatever the first assignment assigns, the second assigns alike. -/
def Within (smaller larger : Assignment) : Prop :=
  ∀ id, Refines (smaller.get? id) (larger.get? id)

/-- Assigning a variable that was open takes nothing back. -/
theorem within_insert {assignment : Assignment} {id : Nat} (free : assignment.get? id = none)
    (value : Bool) : assignment.Within (assignment.insert id value) := by
  intro other found assigned
  have different : other ≠ id := by
    rintro rfl
    rw [free] at assigned
    cases assigned
  rw [Table.get?_insert, if_neg different, assigned]

/-- Both assignments treat each of the variables alike. -/
def AgreeOn (ids : List Nat) (first second : Assignment) : Prop :=
  ∀ id ∈ ids, first.get? id = second.get? id

theorem agreeOn_append {ids others : List Nat} {first second : Assignment} :
    AgreeOn (ids ++ others) first second ↔
      AgreeOn ids first second ∧ AgreeOn others first second :=
  List.forall_mem_append

theorem AgreeOn.of_mem_flatMap {α : Type} {parts : List α} {part : α} {support : α -> List Nat}
    {first second : Assignment} (agree : AgreeOn (parts.flatMap support) first second)
    (member : part ∈ parts) : AgreeOn (support part) first second :=
  fun id occurs => agree id (List.mem_flatMap.mpr ⟨part, member, occurs⟩)

end Assignment

/-- The laws of a partial evaluation of something in which the given variables occur and which
has a value under every valuation of all variables. -/
structure LawfulEvaluation {α : Type} (evaluate : Assignment -> Option α) (ids : List Nat)
    (value : (Nat -> Bool) -> α) : Prop where
  /-- An answer stays under every extension of the assignment. -/
  monotone : ∀ {smaller larger : Assignment} {answer : α}, smaller.Within larger ->
    evaluate smaller = some answer -> evaluate larger = some answer
  /-- An answer is the value under every valuation that extends the assignment. -/
  sound : ∀ {assignment : Assignment} {valuation : Nat -> Bool} {answer : α},
    assignment.Extends valuation -> evaluate assignment = some answer ->
    value valuation = answer
  /-- Variables that do not occur do not matter. -/
  confined : ∀ {first second : Assignment}, Assignment.AgreeOn ids first second ->
    evaluate first = evaluate second
  /-- There is an answer if every variable that occurs is assigned. -/
  complete : ∀ {assignment : Assignment}, assignment.Covers ids ->
    (evaluate assignment).isSome = true

/-! ## Bits -/

namespace Bit

theorem refines_eval? {smaller larger : Assignment} (within : smaller.Within larger) (bit : Bit) :
    Refines (bit.eval? smaller) (bit.eval? larger) := by
  induction bit with
  | literal value => exact .refl _
  | var id => exact within id
  | notGate wire input ih => exact ih.not
  | andGate leftWire left rightWire right leftIh rightIh => exact leftIh.conjoin rightIh

theorem eval?_congr {first second : Assignment} {bit : Bit}
    (agree : Assignment.AgreeOn bit.support first second) :
    bit.eval? first = bit.eval? second := by
  induction bit with
  | literal value => rfl
  | var id => exact agree id (List.mem_singleton.mpr rfl)
  | notGate wire input ih => rw [eval?, ih agree, eval?]
  | andGate leftWire left rightWire right leftIh rightIh =>
      have parts := Assignment.agreeOn_append.mp agree
      rw [eval?, leftIh parts.1, rightIh parts.2, eval?]

theorem lawful_evaluate (bit : Bit) :
    LawfulEvaluation (fun assignment => assignment.evaluate bit) bit.support
      fun valuation => bit.eval valuation := by
  simp only [Assignment.evaluate_eq]
  constructor
  case monotone =>
    intro smaller larger answer within found
    exact refines_eval? within bit answer found
  case sound =>
    intro assignment valuation answer extension found
    exact eval_of_eval? extension found
  case confined =>
    intro first second agree
    exact eval?_congr agree
  case complete =>
    intro assignment covers
    rw [eval?_of_covers covers, Option.isSome_some]

end Bit

/-! ## Words -/

namespace Word

theorem valueBy?_congr {first second : Bit -> Option Bool} {word : Word}
    (same : ∀ bit ∈ word.bits, first bit = second bit) :
    word.valueBy? first = word.valueBy? second := by
  have traversed : ∀ bits : List Bit, (∀ bit ∈ bits, first bit = second bit) ->
      bits.mapM first = bits.mapM second := by
    intro bits
    induction bits with
    | nil => exact fun _ => rfl
    | cons bit rest ih =>
        intro all
        rw [List.forall_mem_cons] at all
        rw [List.mapM_cons, List.mapM_cons, all.1, ih all.2]
  rw [valueBy?, valueBy?, traversed word.bits same]

theorem lawful_evaluateWord {word : Word} (narrow : word.width ≤ knownBits) :
    LawfulEvaluation (fun assignment => assignment.evaluateWord word) word.support
      fun valuation => word.value valuation := by
  constructor
  case monotone =>
    intro smaller larger number within found
    rw [Interpretation.evaluateWord_eq_some_iff narrow] at found ⊢
    rcases found with ⟨values, reads, length, same⟩
    refine ⟨values, reads.imp ?_, length, same⟩
    intro bit value read
    exact Bit.refines_eval? within bit value read
  case sound =>
    intro assignment valuation number extension found
    rw [Interpretation.evaluateWord_eq_some_iff narrow] at found
    exact (found.eq_value extension).symm
  case confined =>
    intro first second agree
    simp only [Assignment.evaluateWord_eq]
    apply valueBy?_congr
    intro bit member
    exact Bit.eval?_congr (agree.of_mem_flatMap member)
  case complete =>
    intro assignment covers
    have denotes := Interpretation.denotes_of_covers rfl covers
    rw [denotes.evaluateWord narrow, Option.isSome_some]

/-! ## Digits -/

/-- The number with the given bits is the sum of the weights of those that are set. -/
theorem ofBools_eq_sum (values : List Bool) :
    ofBools values =
      ∑ place ∈ Finset.range values.length, (values.getD place false).toNat * 2 ^ place := by
  induction values with
  | nil => rfl
  | cons value rest ih =>
      have higher : ∀ place ∈ Finset.range rest.length,
          ((value :: rest).getD (place + 1) false).toNat * 2 ^ (place + 1) =
            2 * ((rest.getD place false).toNat * 2 ^ place) := by
        intro place _
        rw [List.getD_cons_succ, Nat.pow_succ, Nat.mul_comm (2 ^ place) 2, Nat.mul_left_comm]
      calc ofBools (value :: rest) = 2 * ofBools rest + value.toNat := Nat.add_comm _ _
        _ = 2 * ∑ place ∈ Finset.range rest.length, (rest.getD place false).toNat * 2 ^ place +
              value.toNat := by rw [← ih]
        _ = ∑ place ∈ Finset.range rest.length,
              ((value :: rest).getD (place + 1) false).toNat * 2 ^ (place + 1) +
              value.toNat := by rw [Finset.mul_sum, Finset.sum_congr rfl higher]
        _ = _ := by
              rw [List.length_cons, Finset.sum_range_succ', List.getD_cons_zero, Nat.pow_zero,
                Nat.mul_one]

theorem value_eq_sum (word : Word) (valuation : Nat -> Bool) :
    word.value valuation =
      ∑ place ∈ Finset.range word.width,
        ((word.bits.getD place .zero).eval valuation).toNat * 2 ^ place := by
  have digit : ∀ place, (word.bits.map (Bit.eval valuation)).getD place false =
      (word.bits.getD place .zero).eval valuation := by
    intro place
    rw [List.getD_eq_getElem?_getD, List.getD_eq_getElem?_getD, List.getElem?_map]
    cases word.bits[place]? <;> rfl
  simp only [value, ofBools_eq_sum, digit, List.length_map]
  rfl

/-- A word evaluates to a number just if each of its bits evaluates to a value, and then to
the sum of the weights of those that are set. -/
theorem evaluateWord_eq_some_iff_sum {word : Word} (narrow : word.width ≤ knownBits)
    (assignment : Assignment) (number : Nat) :
    assignment.evaluateWord word = some number ↔
      ∃ values : List Bool, word.bits.map assignment.evaluate = values.map some ∧
        number = ∑ place ∈ Finset.range word.width,
          (values.getD place false).toNat * 2 ^ place := by
  rw [Interpretation.evaluateWord_eq_some_iff narrow]
  constructor
  · rintro ⟨values, reads, length, rfl⟩
    refine ⟨values, map_evaluate_of_reads reads, ?_⟩
    rw [ofBools_eq_sum, length]
  · rintro ⟨values, evaluated, rfl⟩
    have length : values.length = word.width := by
      have lengths := congrArg List.length evaluated
      rw [List.length_map, List.length_map] at lengths
      exact lengths.symm
    refine ⟨values, ?_, length, ?_⟩
    · rw [← List.forall₂_eq_eq_eq, List.forall₂_map_left_iff, List.forall₂_map_right_iff]
        at evaluated
      apply evaluated.imp
      intro bit value found
      rwa [Assignment.evaluate_eq] at found
    · rw [ofBools_eq_sum, length]

end Word

/-! ## Both together -/

/-- Partial evaluation is sound, monotone and complete and looks only at variables that occur,
for every bit and for every word that is narrow enough.  A word has its value, and evaluates to
a number, by the weights of its bits. -/
theorem Assignment.evaluation_lawful :
    (∀ bit : Bit, LawfulEvaluation (fun assignment => assignment.evaluate bit) bit.support
      fun valuation => bit.eval valuation) ∧
    ∀ word : Word, word.width ≤ Word.knownBits ->
      (LawfulEvaluation (fun assignment => assignment.evaluateWord word) word.support
        fun valuation => word.value valuation) ∧
      (∀ valuation : Nat -> Bool, word.value valuation =
        ∑ place ∈ Finset.range word.width,
          ((word.bits.getD place .zero).eval valuation).toNat * 2 ^ place) ∧
      ∀ (assignment : Assignment) (number : Nat),
        assignment.evaluateWord word = some number ↔
          ∃ values : List Bool, word.bits.map assignment.evaluate = values.map some ∧
            number = ∑ place ∈ Finset.range word.width,
              (values.getD place false).toNat * 2 ^ place := by
  refine ⟨Bit.lawful_evaluate, ?_⟩
  intro word narrow
  exact ⟨Word.lawful_evaluateWord narrow, word.value_eq_sum,
    Word.evaluateWord_eq_some_iff_sum narrow⟩

/-- A false operand decides a conjunction whose other operand is open, and goes on to do so when
that one is assigned.  A word of the greatest width is read up to its highest bit. -/
theorem Assignment.evaluation_lawful_examples :
    let halfOpen : Assignment := .ofList [(0, false)]
    let filled : Assignment := halfOpen.insert 1 true
    let valuation : Nat -> Bool := fun id => id == 1
    let conjunction : Bit := .andGate 3 (.var 1) 4 (.var 0)
    let highest : Word := ⟨List.replicate 63 .zero ++ [.notGate 5 (.var 0)]⟩
    halfOpen.Within filled ∧ halfOpen.Extends valuation ∧ filled.Covers conjunction.support ∧
    halfOpen.evaluate conjunction = some false ∧ filled.evaluate conjunction = some false ∧
    conjunction.eval valuation = false ∧ (filled.evaluate conjunction).isSome = true ∧
    highest.width = Word.knownBits ∧ halfOpen.evaluateWord highest = some (2 ^ 63) ∧
    filled.evaluateWord highest = some (2 ^ 63) ∧ highest.value valuation = 2 ^ 63 := by
  intro halfOpen filled valuation conjunction highest
  have within : halfOpen.Within filled := within_insert rfl true
  have extension : halfOpen.Extends valuation := by
    intro id value assigned
    by_cases first : id = 0
    · subst first
      cases assigned
      rfl
    · have other : halfOpen.get? id = none := by
        change ((Table.empty.insert 0 false).get? id) = none
        rw [Table.get?_insert, if_neg first, Table.get?_empty]
      rw [other] at assigned
      cases assigned
  have covers : filled.Covers conjunction.support := by decide
  have decided : halfOpen.evaluate conjunction = some false := by
    rw [evaluate_eq]
    decide
  have width : highest.width = Word.knownBits := by decide +kernel
  have number : halfOpen.evaluateWord highest = some (2 ^ 63) := by
    rw [evaluateWord_eq]
    decide +kernel
  have bits := evaluation_lawful.1 conjunction
  have words := (evaluation_lawful.2 highest (Nat.le_of_eq width)).1
  exact ⟨within, extension, covers, decided, bits.monotone within decided,
    bits.sound extension decided, bits.complete covers, width, number,
    words.monotone within number, words.sound extension number⟩

end SymbolicMachine
