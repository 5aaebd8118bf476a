import SymbolicMachine.Evaluation

namespace SymbolicMachine

/-!
# Deciders

A decider is asked whether a bit holds under all assignments.  It may prove the bit,
refute it by an assignment, or give up.  Nothing is assumed of a decider: what its
answers are worth is a property of the particular one.
-/

/-- Why a decider gives no verdict. -/
inductive DeciderError where
  /-- The decider gave up for the stated reason. -/
  | unknown (reason : String)
  /-- The decider refuted the bit without saying how. -/
  | missingModel
  deriving DecidableEq, Repr

namespace DeciderError

/-- What a decider error says. -/
def message : DeciderError -> String
  | unknown reason => s!"solver returned unknown: {reason}"
  | missingModel => "solver found the claim falsifiable but produced no model"

end DeciderError

/-- The answer of a decider. -/
inductive Verdict where
  | proved
  /-- Refuted by an assignment. -/
  | counterexample (assignment : Assignment)
  deriving DecidableEq, Repr

/-- Decides, or tries to, whether a bit holds under all assignments. -/
abbrev Decider := Bit -> Except DeciderError Verdict

namespace Decider

/-- Tries out assignments in order and refutes by the first one under which the bit
is false.  An assignment that leaves the bit open makes it give up. -/
def sampling : List Assignment -> Decider
  | [], _ => return .proved
  | assignment :: rest, bit =>
      match ((Evaluator.bit bit).run (.new assignment)).1 with
      | some true => sampling rest bit
      | some false => return .counterexample assignment
      | none => throw (.unknown "incomplete sample")

/-- Refutes every bit by one assignment. -/
def refuting (assignment : Assignment) : Decider :=
  fun _ => return .counterexample assignment

/-- Never gives a verdict. -/
def failing (error : DeciderError) : Decider :=
  fun _ => throw error

end Decider
end SymbolicMachine
