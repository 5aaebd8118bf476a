import SymbolicMachine.Text.Hexadecimal
import SymbolicMachine.Verification.Basic

namespace SymbolicMachine

/-!
# Test vectors

A run of the multiplier together with an assignment gives a concrete test case: the
number of each input, and the numbers of both result words.
-/

/-- Named numbers that go into the multiplier and come out of it. -/
structure TestVector where
  inputs : List (String × Nat)
  outputs : List (String × Nat)
  deriving DecidableEq, Repr

namespace TestVector

/-- The numbers of named signals, if each of them has one. -/
def numbers : List (String × Signal) -> StateM Evaluator (Option (List (String × Nat)))
  | [] => return some []
  | (name, signal) :: rest => do
      match ← Evaluator.signal signal with
      | none => return none
      | some number => return (← numbers rest).map ((name, number) :: ·)

/-- The named signals that go into a run. -/
def inputSignals (run : Verification.Run) : List (String × Signal) :=
  run.inputs.named.map fun (name, signal) => (name.text, signal)

/-- The named signals that come out of a run. -/
def outputSignals (run : Verification.Run) : List (String × Signal) :=
  [("high", .word run.high), ("low", .word run.low)]

/-- The test case that an assignment makes of a run, if it gives every input and
output a number. -/
def ofRun? (run : Verification.Run) (assignment : Assignment) : Option TestVector :=
  let evaluation : StateM Evaluator (Option TestVector) := do
    match ← numbers (inputSignals run) with
    | none => return none
    | some inputs =>
        return (← numbers (outputSignals run)).map fun outputs => { inputs, outputs }
  (evaluation.run (.new assignment)).1

/-- The number of an input. -/
def input? (vector : TestVector) (name : String) : Option Nat :=
  vector.inputs.lookup name

/-- The number of an output. -/
def output? (vector : TestVector) (name : String) : Option Nat :=
  vector.outputs.lookup name

/-- The product that the two result words make up. -/
def product? (vector : TestVector) : Option Nat := do
  let high ← vector.output? "high"
  let low ← vector.output? "low"
  return (high <<< wordBits) ||| low

/-- One named number. -/
def entryText (entry : String × Nat) : String :=
  entry.1 ++ "=" ++ Text.hexadecimal 1 entry.2

/-- A test case on one line: inputs, an arrow, outputs. -/
def text (vector : TestVector) : String :=
  String.join (vector.inputs.map fun entry => entryText entry ++ " ") ++ "=>" ++
    String.join (vector.outputs.map fun entry => " " ++ entryText entry)

end TestVector
end SymbolicMachine
