import SymbolicMachine.Bit.Lemmas
import SymbolicMachine.Proofs.Evaluation

namespace SymbolicMachine

/-!
# Interpretations

What an operation computes can be asked of different readings of its bits: the
value under a valuation of all variables, or the answer of an evaluator under an
assignment that leaves variables open.  Statements about words, memories, machines
and runs look the same for all of them, and so do their proofs.

An interpretation is a partial reading of bits that respects literals, recognised
identity, negation and conjunction.  Nothing else is needed: every other connective
is built from these, and so is everything above.
-/

variable {assignment : Assignment}

/-! ## Elementary gates under partial assignments -/

/-- Whatever the first reading decides, the second decides in the same way. -/
def Refines (less more : Option Bool) : Prop :=
  ∀ value, less = some value -> more = some value

namespace Refines

theorem refl (reading : Option Bool) : Refines reading reading :=
  fun _ decided => decided

theorem trans {first second third : Option Bool} (lower : Refines first second)
    (upper : Refines second third) : Refines first third :=
  fun value decided => upper value (lower value decided)

theorem not {less more : Option Bool} (refines : Refines less more) :
    Refines (less.map (!·)) (more.map (!·)) := by
  intro value decided
  rcases Option.map_eq_some_iff.mp decided with ⟨inner, found, flipped⟩
  rw [refines inner found, Option.map_some, flipped]

theorem conjoin {less more less' more' : Option Bool} (left : Refines less more)
    (right : Refines less' more') :
    Refines (Bit.conjoin? less less') (Bit.conjoin? more more') := by
  intro value decided
  cases value with
  | true =>
      have both := Bit.conjoin?_eq_some_true decided
      rw [left true both.1, right true both.2]
      rfl
  | false =>
      rcases Bit.conjoin?_eq_some_false decided with leftFalse | rightFalse
      · rw [left false leftFalse]
        rfl
      · rw [right false rightFalse]
        rcases more with _ | _ | _ <;> rfl

end Refines

namespace Bit

theorem conjoin?_comm (left right : Option Bool) :
    conjoin? left right = conjoin? right left := by
  rcases left with _ | _ | _ <;> rcases right with _ | _ | _ <;> rfl

theorem conjoin?_self (reading : Option Bool) : conjoin? reading reading = reading := by
  rcases reading with _ | _ | _ <;> rfl

theorem conjoin?_true (reading : Option Bool) : conjoin? (some true) reading = reading := by
  rcases reading with _ | _ | _ <;> rfl

theorem conjoin?_not {reading : Option Bool} (decided : reading.isSome = true) :
    conjoin? (reading.map (!·)) reading = some false := by
  rcases reading with _ | _ | _
  · cases decided
  · rfl
  · rfl

theorem eval?_eq_of_identical {left right : Bit} (same : left.identical right = true) :
    left.eval? assignment = right.eval? assignment :=
  reading_eq_of_identical (Bit.eval? assignment) (fun _ _ => rfl)
    (fun _ _ _ _ => rfl) conjoin?_comm same

theorem eval?_eq_not_of_negates {left right : Bit} (opposite : left.negates right = true) :
    left.eval? assignment = (right.eval? assignment).map (!·) := by
  cases left <;> simp only [negates, Bool.false_eq_true] at opposite
  rw [eval?, eval?_eq_of_identical opposite]

theorem gives_eval?_not (assignment : Assignment) (bit : Bit) :
    Gives bit.not fun result => result.eval? assignment = (bit.eval? assignment).map (!·) := by
  cases bit with
  | literal value => exact .pure rfl
  | var id => exact fun _ => rfl
  | notGate wire input =>
      refine .pure ?_
      simp [eval?, Function.comp_def]
  | andGate leftWire left rightWire right => exact fun _ => rfl

theorem refines_not (assignment : Assignment) (bit : Bit) :
    Gives bit.not fun result =>
      Refines ((bit.eval? assignment).map (!·)) (result.eval? assignment) := by
  refine (gives_eval?_not assignment bit).mono fun result same => ?_
  rw [same]
  exact .refl _

/-- Where no gate is needed and an operand has a value, the conjunction found has the reading
of the gate.  Without a value on either side it may decide more: a bit beside its negation. -/
theorem eval?_conjunction? {left right result : Bit}
    (found : conjunction? left right = some result)
    (decided : (left.eval? assignment).isSome = true ∨ (right.eval? assignment).isSome = true) :
    result.eval? assignment = conjoin? (left.eval? assignment) (right.eval? assignment) := by
  unfold conjunction? at found
  split at found
  · rename_i same
    cases found
    rw [← eval?_eq_of_identical same, conjoin?_self]
  · split at found
    · cases found
      rfl
    · cases found
      rw [eval?, conjoin?_true]
    · split at found
      · rename_i opposite
        cases found
        rw [eval?_eq_not_of_negates opposite, Option.isSome_map, or_self] at decided
        rw [eval?_eq_not_of_negates opposite, conjoin?_not decided]
        rfl
      · split at found
        · cases found
          rw [conjoin?_comm]
          rfl
        · cases found
          rw [conjoin?_comm, eval?, conjoin?_true]
        · split at found
          · rename_i opposite
            cases found
            rw [eval?_eq_not_of_negates opposite, Option.isSome_map, or_self] at decided
            rw [eval?_eq_not_of_negates opposite, conjoin?_comm, conjoin?_not decided]
            rfl
          · cases found

theorem gives_eval?_and {left right : Bit}
    (decided : (left.eval? assignment).isSome = true ∨ (right.eval? assignment).isSome = true) :
    Gives (left.and right) fun result =>
      result.eval? assignment = conjoin? (left.eval? assignment) (right.eval? assignment) := by
  unfold and
  split
  · rename_i found
    exact .pure (eval?_conjunction? found decided)
  · exact fun _ => rfl

theorem refines_and (assignment : Assignment) (left right : Bit) :
    Gives (left.and right) fun result =>
      Refines (conjoin? (left.eval? assignment) (right.eval? assignment))
        (result.eval? assignment) := by
  by_cases decided : (left.eval? assignment).isSome = true ∨ (right.eval? assignment).isSome = true
  · refine (gives_eval?_and decided).mono fun result same => ?_
    rw [same]
    exact .refl _
  · rw [not_or, Option.not_isSome_iff_eq_none, Option.not_isSome_iff_eq_none] at decided
    intro session value impossible
    rw [decided.1, decided.2] at impossible
    cases impossible

end Bit

/-! ## Readings -/

/-- A partial reading of bits with which the elementary gates agree. -/
structure Interpretation where
  value? : Bit -> Option Bool
  literal : ∀ value, value? (.literal value) = some value
  identical : ∀ {left right x y}, left.identical right = true ->
    value? left = some x -> value? right = some y -> x = y
  negation : ∀ {bit x}, value? bit = some x ->
    Gives bit.not fun result => value? result = some (!x)
  conjunction : ∀ {left right x y}, value? left = some x -> value? right = some y ->
    Gives (left.and right) fun result => value? result = some (x && y)

namespace Interpretation

/-- Read bits under a valuation of all variables. -/
def ofValuation (valuation : Nat -> Bool) : Interpretation where
  value? bit := some (bit.eval valuation)
  literal _ := rfl
  identical := by
    intro left right x y same leftValue rightValue
    rw [← Option.some.inj leftValue, ← Option.some.inj rightValue]
    exact Bit.eval_eq_of_identical same
  negation := by
    intro bit x value
    rw [← Option.some.inj value]
    exact (Bit.gives_not valuation bit).mono fun result holds => congrArg some holds
  conjunction := by
    intro left right x y leftValue rightValue
    rw [← Option.some.inj leftValue, ← Option.some.inj rightValue]
    exact (Bit.gives_and valuation left right).mono fun result holds => congrArg some holds

/-- The interpretation in which every variable is false.  It reads every bit. -/
def ground : Interpretation :=
  .ofValuation fun _ => false

/-- Read bits under an assignment, which may leave variables open. -/
def ofAssignment (assignment : Assignment) : Interpretation where
  value? := Bit.eval? assignment
  literal _ := rfl
  identical := by
    intro left right x y same leftValue rightValue
    rw [Bit.eval?_eq_of_identical same, rightValue] at leftValue
    exact (Option.some.inj leftValue).symm
  negation := by
    intro bit x value
    refine (Bit.refines_not assignment bit).mono fun result refines => refines _ ?_
    rw [value, Option.map_some]
  conjunction := by
    intro left right x y leftValue rightValue
    refine (Bit.refines_and assignment left right).mono fun result refines => refines _ ?_
    rw [leftValue, rightValue, Bit.conjoin?_some]

variable (I : Interpretation)

/-- A bit has a value, and it is this one. -/
def Reads (bit : Bit) (value : Bool) : Prop :=
  I.value? bit = some value

variable {I} {left right : Bit} {x y : Bool}

theorem reads_literal (value : Bool) : I.Reads (.literal value) value :=
  I.literal value

theorem Reads.unique {bit : Bit} (first : I.Reads bit x) (second : I.Reads bit y) : x = y :=
  Option.some.inj (first.symm.trans second)

/-- What is read under an assignment is what an evaluator answers. -/
theorem Reads.evaluate {assignment : Assignment} {bit : Bit}
    (reads : (ofAssignment assignment).Reads bit x) : assignment.evaluate bit = some x := by
  rw [Assignment.evaluate_eq]
  exact reads

theorem Reads.eq_of_known {bit : Bit} (reads : I.Reads bit x) (known : bit.known = some y) :
    x = y := by
  cases bit <;> cases known
  exact reads.unique (reads_literal y)

/-! ## Connectives -/

theorem Reads.not (reads : I.Reads left x) :
    Gives left.not fun result => I.Reads result (!x) :=
  I.negation reads

theorem Reads.and (leftReads : I.Reads left x) (rightReads : I.Reads right y) :
    Gives (left.and right) fun result => I.Reads result (x && y) :=
  I.conjunction leftReads rightReads

theorem Reads.or (leftReads : I.Reads left x) (rightReads : I.Reads right y) :
    Gives (left.or right) fun result => I.Reads result (x || y) := by
  refine leftReads.not.bind fun noLeft noLeftReads => ?_
  refine rightReads.not.bind fun noRight noRightReads => ?_
  refine (noLeftReads.and noRightReads).bind fun neither neitherReads => ?_
  refine neitherReads.not.mono fun result resultReads => ?_
  rw [Bool.not_and, Bool.not_not, Bool.not_not] at resultReads
  exact resultReads

theorem Reads.xor (leftReads : I.Reads left x) (rightReads : I.Reads right y) :
    Gives (left.xor right) fun result => I.Reads result (x ^^ y) := by
  refine rightReads.not.bind fun noRight noRightReads => ?_
  refine (leftReads.and noRightReads).bind fun onlyLeft onlyLeftReads => ?_
  refine leftReads.not.bind fun noLeft noLeftReads => ?_
  refine (noLeftReads.and rightReads).bind fun onlyRight onlyRightReads => ?_
  refine (onlyLeftReads.or onlyRightReads).mono fun result resultReads => ?_
  have meaning : (x && !y || !x && y) = (x ^^ y) := by cases x <;> cases y <;> rfl
  rw [meaning] at resultReads
  exact resultReads

theorem Reads.equals (leftReads : I.Reads left x) (rightReads : I.Reads right y) :
    Gives (left.equals right) fun result => I.Reads result (x == y) := by
  unfold Bit.equals
  split
  · rename_i same
    rw [I.identical same leftReads rightReads, beq_self_eq_true]
    exact .pure (reads_literal true)
  · refine (leftReads.and rightReads).bind fun both bothReads => ?_
    refine leftReads.not.bind fun noLeft noLeftReads => ?_
    refine rightReads.not.bind fun noRight noRightReads => ?_
    refine (noLeftReads.and noRightReads).bind fun neither neitherReads => ?_
    refine (bothReads.or neitherReads).mono fun result resultReads => ?_
    have meaning : (x && y || !x && !y) = (x == y) := by cases x <;> cases y <;> rfl
    rw [meaning] at resultReads
    exact resultReads

theorem Reads.select {condition : Bit} {c : Bool} (conditionReads : I.Reads condition c)
    (leftReads : I.Reads left x) (rightReads : I.Reads right y) :
    Gives (condition.select left right) fun result => I.Reads result (if c then x else y) := by
  unfold Bit.select
  split
  · rename_i same
    rw [I.identical same leftReads rightReads, ite_self] at *
    exact .pure leftReads
  · split
    · rw [← (reads_literal true).unique conditionReads]
      exact .pure leftReads
    · rw [← (reads_literal false).unique conditionReads]
      exact .pure rightReads
    · refine (conditionReads.and leftReads).bind fun taken takenReads => ?_
      refine conditionReads.not.bind fun otherwise otherwiseReads => ?_
      refine (otherwiseReads.and rightReads).bind fun notTaken notTakenReads => ?_
      refine (takenReads.or notTakenReads).mono fun result resultReads => ?_
      have meaning : (c && x || !c && y) = if c then x else y := by cases c <;> simp
      rw [meaning] at resultReads
      exact resultReads

theorem Reads.implies (premiseReads : I.Reads left x) (conclusionReads : I.Reads right y) :
    Gives (left.implies right) fun result => I.Reads result (!x || y) := by
  refine premiseReads.not.bind fun excused excusedReads => ?_
  exact excusedReads.or conclusionReads

end Interpretation
end SymbolicMachine
