import SymbolicMachine.Proofs.Interpretation

namespace SymbolicMachine

/-!
# Simplification and partial knowledge

Simplifying a connective may remove a variable from a circuit, so the result can
have a value where the operands leave the plain circuit open.  It never goes the
other way and never disagrees: whenever the three-valued reading of a connective
is decided by the readings of its operands, the simplified circuit is read as that
value, and whatever value it is read as, the connective has under every extension
of the assignment.

The comparison is one of information.  The connectives of three-valued logic are
monotone in it, which is why the composite gates need no inspection of their own.
-/

variable {assignment : Assignment}

namespace Bit

/-! ## Three-valued logic -/

/-- Three-valued disjunction: a true operand decides it. -/
def disjoin? : Option Bool -> Option Bool -> Option Bool
  | some true, _ => some true
  | _, some true => some true
  | some false, some false => some false
  | _, _ => none

theorem disjoin?_eq (left right : Option Bool) :
    disjoin? left right = (conjoin? (left.map (!·)) (right.map (!·))).map (!·) := by
  rcases left with _ | _ | _ <;> rcases right with _ | _ | _ <;> rfl

theorem refines_disjoin? {less more less' more' : Option Bool} (left : Refines less more)
    (right : Refines less' more') : Refines (disjoin? less less') (disjoin? more more') := by
  rw [disjoin?_eq, disjoin?_eq]
  exact (left.not.conjoin right.not).not

theorem refines_equality_self (reading : Option Bool) :
    Refines (disjoin? (conjoin? reading reading)
      (conjoin? (reading.map (!·)) (reading.map (!·)))) (some true) := by
  intro value decided
  rcases reading with _ | _ | _ <;> simp_all [conjoin?, disjoin?]

theorem refines_choice_self (condition reading : Option Bool) :
    Refines (disjoin? (conjoin? condition reading) (conjoin? (condition.map (!·)) reading))
      reading := by
  intro value decided
  rcases condition with _ | _ | _ <;> rcases reading with _ | _ | _ <;>
    simp_all [conjoin?, disjoin?]

theorem choice_known (condition : Bool) (whenTrue whenFalse : Option Bool) :
    disjoin? (conjoin? (some condition) whenTrue) (conjoin? (some (!condition)) whenFalse) =
      if condition then whenTrue else whenFalse := by
  cases condition <;> rcases whenTrue with _ | _ | _ <;> rcases whenFalse with _ | _ | _ <;> rfl

/-! ## Gates -/

theorem refines_or (assignment : Assignment) (left right : Bit) :
    Gives (left.or right) fun result =>
      Refines (disjoin? (left.eval? assignment) (right.eval? assignment))
        (result.eval? assignment) := by
  refine (refines_not assignment left).bind fun noLeft leftReading => ?_
  refine (refines_not assignment right).bind fun noRight rightReading => ?_
  refine (refines_and assignment noLeft noRight).bind fun neither neitherReading => ?_
  refine (refines_not assignment neither).mono fun result resultReading => ?_
  rw [disjoin?_eq]
  exact (((leftReading.conjoin rightReading).trans neitherReading).not).trans resultReading

theorem refines_xor (assignment : Assignment) (left right : Bit) :
    Gives (left.xor right) fun result =>
      Refines
        (disjoin? (conjoin? (left.eval? assignment) ((right.eval? assignment).map (!·)))
          (conjoin? ((left.eval? assignment).map (!·)) (right.eval? assignment)))
        (result.eval? assignment) := by
  refine (refines_not assignment right).bind fun noRight noRightReading => ?_
  refine (refines_and assignment left noRight).bind fun onlyLeft onlyLeftReading => ?_
  refine (refines_not assignment left).bind fun noLeft noLeftReading => ?_
  refine (refines_and assignment noLeft right).bind fun onlyRight onlyRightReading => ?_
  refine (refines_or assignment onlyLeft onlyRight).mono fun result resultReading => ?_
  have leftSide := ((Refines.refl (left.eval? assignment)).conjoin noRightReading).trans
    onlyLeftReading
  have rightSide := (noLeftReading.conjoin (.refl (right.eval? assignment))).trans
    onlyRightReading
  exact (refines_disjoin? leftSide rightSide).trans resultReading

theorem refines_equals (assignment : Assignment) (left right : Bit) :
    Gives (left.equals right) fun result =>
      Refines
        (disjoin? (conjoin? (left.eval? assignment) (right.eval? assignment))
          (conjoin? ((left.eval? assignment).map (!·)) ((right.eval? assignment).map (!·))))
        (result.eval? assignment) := by
  unfold equals
  split
  · rename_i same
    refine .pure ?_
    rw [eval?_eq_of_identical same]
    exact refines_equality_self _
  · refine (refines_and assignment left right).bind fun both bothReading => ?_
    refine (refines_not assignment left).bind fun noLeft noLeftReading => ?_
    refine (refines_not assignment right).bind fun noRight noRightReading => ?_
    refine (refines_and assignment noLeft noRight).bind fun neither neitherReading => ?_
    refine (refines_or assignment both neither).mono fun result resultReading => ?_
    have noneHolds := (noLeftReading.conjoin noRightReading).trans neitherReading
    exact (refines_disjoin? bothReading noneHolds).trans resultReading

theorem refines_select (assignment : Assignment) (condition whenTrue whenFalse : Bit) :
    Gives (condition.select whenTrue whenFalse) fun result =>
      Refines
        (disjoin? (conjoin? (condition.eval? assignment) (whenTrue.eval? assignment))
          (conjoin? ((condition.eval? assignment).map (!·)) (whenFalse.eval? assignment)))
        (result.eval? assignment) := by
  unfold select
  split
  · rename_i same
    refine .pure ?_
    rw [← eval?_eq_of_identical same]
    exact refines_choice_self _ _
  · split
    · refine .pure ?_
      rw [eval?, Option.map_some, choice_known]
      exact .refl _
    · refine .pure ?_
      rw [eval?, Option.map_some, choice_known]
      exact .refl _
    · refine (refines_and assignment condition whenTrue).bind fun taken takenReading => ?_
      refine (refines_not assignment condition).bind fun otherwise otherwiseReading => ?_
      refine (refines_and assignment otherwise whenFalse).bind
        fun notTaken notTakenReading => ?_
      refine (refines_or assignment taken notTaken).mono fun result resultReading => ?_
      have elseSide := (otherwiseReading.conjoin (.refl (whenFalse.eval? assignment))).trans
        notTakenReading
      exact (refines_disjoin? takenReading elseSide).trans resultReading

theorem refines_implies (assignment : Assignment) (premise conclusion : Bit) :
    Gives (premise.implies conclusion) fun result =>
      Refines (disjoin? ((premise.eval? assignment).map (!·)) (conclusion.eval? assignment))
        (result.eval? assignment) := by
  refine (refines_not assignment premise).bind fun excused excusedReading => ?_
  refine (refines_or assignment excused conclusion).mono fun result resultReading => ?_
  exact (refines_disjoin? excusedReading (.refl _)).trans resultReading

/-! ## Decided operands -/

theorem gives_eval?_or {left right : Bit}
    (decided : (left.eval? assignment).isSome = true ∨ (right.eval? assignment).isSome = true) :
    Gives (left.or right) fun result =>
      result.eval? assignment = disjoin? (left.eval? assignment) (right.eval? assignment) := by
  refine (gives_eval?_not assignment left).bind fun noLeft leftReading => ?_
  refine (gives_eval?_not assignment right).bind fun noRight rightReading => ?_
  have stillDecided : (noLeft.eval? assignment).isSome = true ∨
      (noRight.eval? assignment).isSome = true := by
    rwa [leftReading, rightReading, Option.isSome_map, Option.isSome_map]
  refine (gives_eval?_and stillDecided).bind fun neither neitherReading => ?_
  refine (gives_eval?_not assignment neither).mono fun result resultReading => ?_
  rw [resultReading, neitherReading, leftReading, rightReading, disjoin?_eq]

/-- A choice by a condition that has a value is read as the bit that is chosen, whether or not
this bit has a value. -/
theorem gives_eval?_select {condition : Bit} {c : Bool}
    (conditionReads : condition.eval? assignment = some c) (whenTrue whenFalse : Bit) :
    Gives (condition.select whenTrue whenFalse) fun result =>
      result.eval? assignment =
        if c then whenTrue.eval? assignment else whenFalse.eval? assignment := by
  unfold select
  split
  · rename_i same
    rw [← eval?_eq_of_identical same, ite_self]
    exact .pure rfl
  · split
    · cases conditionReads
      exact .pure rfl
    · cases conditionReads
      exact .pure rfl
    · have conditionDecided : (condition.eval? assignment).isSome = true := by
        rw [conditionReads, Option.isSome_some]
      refine (gives_eval?_and (.inl conditionDecided)).bind fun taken takenReading => ?_
      refine (gives_eval?_not assignment condition).bind fun otherwise otherwiseReading => ?_
      have otherwiseDecided : (otherwise.eval? assignment).isSome = true := by
        rwa [otherwiseReading, Option.isSome_map]
      refine (gives_eval?_and (.inl otherwiseDecided)).bind fun notTaken notTakenReading => ?_
      rw [conditionReads] at takenReading
      rw [otherwiseReading, conditionReads, Option.map_some] at notTakenReading
      -- The branch that is not chosen is false whatever it holds.
      have oneIsFalse : (taken.eval? assignment).isSome = true ∨
          (notTaken.eval? assignment).isSome = true := by
        cases c with
        | true => exact .inr (by rw [notTakenReading]; rfl)
        | false => exact .inl (by rw [takenReading]; rfl)
      refine (gives_eval?_or oneIsFalse).mono fun result resultReading => ?_
      rw [resultReading, takenReading, notTakenReading, choice_known]

end Bit

/-! ## All connectives -/

/-- A connective with its operands. -/
inductive Connective where
  | not (operand : Bit)
  | and (left right : Bit)
  | or (left right : Bit)
  | xor (left right : Bit)
  | equals (left right : Bit)
  | implies (premise conclusion : Bit)
  | select (condition whenTrue whenFalse : Bit)

namespace Connective

/-- The simplified circuit of a connective. -/
def build : Connective -> Build Bit
  | not operand => operand.not
  | and left right => left.and right
  | or left right => left.or right
  | xor left right => left.xor right
  | equals left right => left.equals right
  | implies premise conclusion => premise.implies conclusion
  | select condition whenTrue whenFalse => condition.select whenTrue whenFalse

/-- What a connective means for truth values of its operands. -/
def truth (value : Bit -> Bool) : Connective -> Bool
  | not operand => !value operand
  | and left right => value left && value right
  | or left right => value left || value right
  | xor left right => value left ^^ value right
  | equals left right => value left == value right
  | implies premise conclusion => !value premise || value conclusion
  | select condition whenTrue whenFalse =>
      if value condition then value whenTrue else value whenFalse

/-- The three-valued reading of a connective, from readings of its operands. -/
def kleene (value? : Bit -> Option Bool) : Connective -> Option Bool
  | not operand => (value? operand).map (!·)
  | and left right => Bit.conjoin? (value? left) (value? right)
  | or left right => Bit.disjoin? (value? left) (value? right)
  | xor left right =>
      Bit.disjoin? (Bit.conjoin? (value? left) ((value? right).map (!·)))
        (Bit.conjoin? ((value? left).map (!·)) (value? right))
  | equals left right =>
      Bit.disjoin? (Bit.conjoin? (value? left) (value? right))
        (Bit.conjoin? ((value? left).map (!·)) ((value? right).map (!·)))
  | implies premise conclusion =>
      Bit.disjoin? ((value? premise).map (!·)) (value? conclusion)
  | select condition whenTrue whenFalse =>
      Bit.disjoin? (Bit.conjoin? (value? condition) (value? whenTrue))
        (Bit.conjoin? ((value? condition).map (!·)) (value? whenFalse))

theorem refines_build (assignment : Assignment) (connective : Connective) :
    Gives connective.build fun result =>
      Refines (connective.kleene (Bit.eval? assignment)) (result.eval? assignment) := by
  cases connective with
  | not operand => exact Bit.refines_not assignment operand
  | and left right => exact Bit.refines_and assignment left right
  | or left right => exact Bit.refines_or assignment left right
  | xor left right => exact Bit.refines_xor assignment left right
  | equals left right => exact Bit.refines_equals assignment left right
  | implies premise conclusion => exact Bit.refines_implies assignment premise conclusion
  | select condition whenTrue whenFalse =>
      exact Bit.refines_select assignment condition whenTrue whenFalse

theorem gives_build (valuation : Nat -> Bool) (connective : Connective) :
    Gives connective.build fun result =>
      result.eval valuation = connective.truth (Bit.eval valuation) := by
  have reads : ∀ bit : Bit, (Interpretation.ofValuation valuation).Reads bit
      (bit.eval valuation) := fun _ => rfl
  have built : Gives connective.build fun result =>
      (Interpretation.ofValuation valuation).Reads result
        (connective.truth (Bit.eval valuation)) := by
    cases connective with
    | not operand => exact (reads operand).not
    | and left right => exact (reads left).and (reads right)
    | or left right => exact (reads left).or (reads right)
    | xor left right => exact (reads left).xor (reads right)
    | equals left right => exact (reads left).equals (reads right)
    | implies premise conclusion => exact (reads premise).implies (reads conclusion)
    | select condition whenTrue whenFalse =>
        exact (reads condition).select (reads whenTrue) (reads whenFalse)
  exact built.mono fun result holds => Option.some.inj holds

/-- Simplification loses no information and adds none that is wrong.  What the
operands decide, the simplified circuit decides alike, and what the simplified
circuit decides, the connective has under every extension of the assignment. -/
theorem simplified_decides_soundly (connective : Connective) (assignment : Assignment) :
    Gives connective.build fun result =>
      (∀ value, connective.kleene assignment.evaluate = some value ->
        assignment.evaluate result = some value) ∧
      (∀ value, assignment.evaluate result = some value ->
        ∀ valuation, assignment.Extends valuation ->
          connective.truth (Bit.eval valuation) = value) := by
  intro session
  have sameReading : assignment.evaluate = Bit.eval? assignment :=
    funext assignment.evaluate_eq
  rw [sameReading]
  refine ⟨refines_build assignment connective session, ?_⟩
  intro value decided valuation extension
  rw [← gives_build valuation connective session]
  exact Bit.eval_of_eval? extension decided

/-- A choice that the assigned variables decide is decided alike after simplification.
A variable beside its negation is open for both operands together, but simplified to a
literal, which is what the conjunction is under a valuation that extends nothing. -/
theorem simplified_decides_soundly_examples :
    ((Connective.select (.var 0) (.notGate 3 (.var 1)) (.var 2)).kleene
        (Assignment.evaluate (.ofList [(0, true), (1, false)])) = some true ∧
      Assignment.evaluate (.ofList [(0, true), (1, false)])
        ((Connective.select (.var 0) (.notGate 3 (.var 1)) (.var 2)).build.run {}).1 =
          some true) ∧
    ((Connective.and (.var 0) (.notGate 7 (.var 0))).kleene (Assignment.evaluate .empty) = none ∧
      Assignment.evaluate .empty
        ((Connective.and (.var 0) (.notGate 7 (.var 0))).build.run {}).1 = some false ∧
      (Connective.and (.var 0) (.notGate 7 (.var 0))).truth (Bit.eval fun _ => true) =
        false) := by
  have decided : (Connective.select (.var 0) (.notGate 3 (.var 1)) (.var 2)).kleene
      (Assignment.evaluate (.ofList [(0, true), (1, false)])) = some true := by
    simp only [kleene, Assignment.evaluate_eq]
    decide
  have undecided : (Connective.and (.var 0) (.notGate 7 (.var 0))).kleene
      (Assignment.evaluate .empty) = none := by
    simp only [kleene, Assignment.evaluate_eq]
    decide
  have found : Assignment.evaluate .empty
      ((Connective.and (.var 0) (.notGate 7 (.var 0))).build.run {}).1 = some false := by
    rw [Assignment.evaluate_eq]
    decide
  have nothing : Assignment.Extends .empty fun _ => true := by
    intro id value assigned
    cases assigned
  exact ⟨⟨decided, (simplified_decides_soundly _ _ {}).1 true decided⟩, undecided, found,
    (simplified_decides_soundly _ .empty {}).2 false found _ nothing⟩

end Connective
end SymbolicMachine
