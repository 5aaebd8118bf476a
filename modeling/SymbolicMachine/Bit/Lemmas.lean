import SymbolicMachine.Bit.Gates
import SymbolicMachine.Evaluation
import SymbolicMachine.Session.Rules

namespace SymbolicMachine
namespace Bit

/-!
# What gates compute

Recognisably identical bits have the same value, and negation and conjunction have
the value that their names promise, under every valuation and in every session.
Simplification is therefore invisible to valuations.  All other connectives are built
from these two.
-/

variable {valuation : Nat -> Bool} {left right : Bit}

/-! ## Identity -/

theorem eq_of_sameVariable (same : left.sameVariable right = true) : left = right := by
  cases left <;> cases right <;> simp_all [sameVariable]

@[simp] theorem identical_refl (bit : Bit) : bit.identical bit = true := by
  cases bit <;> simp [identical]

theorem sameVariable_comm (left right : Bit) :
    left.sameVariable right = right.sameVariable left := by
  cases left <;> cases right <;> simp [sameVariable, Bool.beq_comm]

/-- It does not matter which of two bits is recognised in the other. -/
theorem identical_comm (left right : Bit) : left.identical right = right.identical left := by
  cases left <;> cases right <;> simp only [identical]
  case literal.literal => exact Bool.beq_comm
  case var.var => exact Bool.beq_comm
  case notGate.notGate => simp only [eq_comm, sameVariable_comm]
  case andGate.andGate => simp only [eq_comm, sameVariable_comm, Bool.and_comm]

/-- A choice between a bit and itself needs no gate. -/
theorem select_self (condition bit : Bit) : condition.select bit bit = pure bit :=
  if_pos (identical_refl bit)

/-- Every reading that goes gate by gate and does not mind the order of the operands
of a conjunction reads identical bits alike. -/
theorem reading_eq_of_identical {α : Type} (reading : Bit -> α) {negation : α -> α}
    {conjunction : α -> α -> α}
    (onNot : ∀ wire input, reading (notGate wire input) = negation (reading input))
    (onAnd : ∀ leftWire left rightWire right,
      reading (andGate leftWire left rightWire right) = conjunction (reading left) (reading right))
    (symmetric : ∀ x y, conjunction x y = conjunction y x)
    (same : left.identical right = true) : reading left = reading right := by
  cases left <;> cases right <;>
    simp only [identical, Bool.or_eq_true, Bool.and_eq_true, decide_eq_true_eq,
      Wire.mk.injEq, beq_iff_eq, Bool.false_eq_true] at same
  case literal.literal => rw [same]
  case var.var => rw [same]
  case notGate.notGate =>
    rcases same with wires | byVariable
    · rw [onNot, onNot, wires.2]
    · rw [onNot, onNot, eq_of_sameVariable byVariable]
  case andGate.andGate =>
    rw [onAnd, onAnd]
    rcases same with ((wires | crossed) | byVariable) | crossedVariables
    · rw [wires.1.2, wires.2.2]
    · rw [crossed.1.2, crossed.2.2, symmetric]
    · rw [eq_of_sameVariable byVariable.1, eq_of_sameVariable byVariable.2]
    · rw [eq_of_sameVariable crossedVariables.1, eq_of_sameVariable crossedVariables.2,
        symmetric]

/-- Identity is sound: what is recognised as one circuit has one value. -/
theorem eval_eq_of_identical (same : left.identical right = true) :
    left.eval valuation = right.eval valuation :=
  reading_eq_of_identical (Bit.eval valuation) (fun _ _ => rfl) (fun _ _ _ _ => rfl)
    Bool.and_comm same

/-- A bit that visibly negates another has the opposite value. -/
theorem eval_eq_not_of_negates (opposite : left.negates right = true) :
    left.eval valuation = !right.eval valuation := by
  cases left <;> simp only [negates, Bool.false_eq_true] at opposite
  rw [eval, eval_eq_of_identical opposite]

/-! ## Gates -/

theorem gives_placeNot (valuation : Nat -> Bool) (bit : Bit) :
    Gives bit.placeNot fun result => result.eval valuation = !bit.eval valuation :=
  fun _ => rfl

theorem gives_placeAnd (valuation : Nat -> Bool) (left right : Bit) :
    Gives (left.placeAnd right) fun result =>
      result.eval valuation = (left.eval valuation && right.eval valuation) :=
  fun _ => rfl

theorem gives_not (valuation : Nat -> Bool) (bit : Bit) :
    Gives bit.not fun result => result.eval valuation = !bit.eval valuation := by
  cases bit with
  | literal value => exact .pure rfl
  | var id => exact gives_placeNot valuation _
  | notGate wire input => exact .pure (by simp [eval])
  | andGate leftWire left rightWire right => exact gives_placeNot valuation _

/-- Where no gate is needed, the conjunction found has the right value. -/
theorem eval_of_conjunction? {result : Bit} (found : conjunction? left right = some result) :
    result.eval valuation = (left.eval valuation && right.eval valuation) := by
  unfold conjunction? at found
  split at found
  · rename_i same
    cases found
    rw [← eval_eq_of_identical same, Bool.and_self]
  · split at found
    · cases found
      rfl
    · cases found
      rfl
    · split at found
      · rename_i opposite
        cases found
        rw [eval_eq_not_of_negates opposite, Bool.not_and_self]
        rfl
      · split at found
        · cases found
          exact (Bool.and_false _).symm
        · cases found
          exact (Bool.and_true _).symm
        · split at found
          · rename_i opposite
            cases found
            rw [eval_eq_not_of_negates opposite, Bool.and_not_self]
            rfl
          · cases found

theorem gives_and (valuation : Nat -> Bool) (left right : Bit) :
    Gives (left.and right) fun result =>
      result.eval valuation = (left.eval valuation && right.eval valuation) := by
  unfold and
  split
  · rename_i found
    exact .pure (eval_of_conjunction? found)
  · exact gives_placeAnd valuation left right

end Bit
end SymbolicMachine
