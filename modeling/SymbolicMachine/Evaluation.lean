import SymbolicMachine.Assignment
import Std.Data.HashMap

namespace SymbolicMachine

/-!
# Evaluation

Under an assignment of values to variables a circuit has a value, or none if it
depends on a variable without one.  Reading is three-valued: a conjunction is
false as soon as one operand is, even if the other has no value.

`Bit.eval?` states this on the circuit as a tree.  `Evaluator` computes it and
visits each wire once, which is what makes shared circuits tractable.  By which
keys it tells wires apart is a parameter: an evaluator goes by the wires themselves.
`Bit.eval` is the two-valued reading under a total valuation.
-/

namespace Bit

/-- The value of a circuit under a valuation of all variables. -/
def eval (valuation : Nat -> Bool) : Bit -> Bool
  | literal value => value
  | var id => valuation id
  | notGate _ input => !input.eval valuation
  | andGate _ left _ right => left.eval valuation && right.eval valuation

/-- Three-valued conjunction: a false operand decides it. -/
def conjoin? : Option Bool -> Option Bool -> Option Bool
  | some false, _ => some false
  | _, some false => some false
  | some true, some true => some true
  | _, _ => none

/-- The three-valued reading of a circuit under a partial assignment. -/
def eval? (assignment : Assignment) : Bit -> Option Bool
  | literal value => some value
  | var id => assignment.get? id
  | notGate _ input => (input.eval? assignment).map (!·)
  | andGate _ left _ right => conjoin? (left.eval? assignment) (right.eval? assignment)

end Bit

namespace Word

/-- The number that a word denotes under a valuation of all variables. -/
def value (valuation : Nat -> Bool) (word : Word) : Nat :=
  ofBools (word.bits.map (Bit.eval valuation))

/-- The number that a word of at most `knownBits` bits denotes under a partial
assignment. -/
def eval? (assignment : Assignment) (word : Word) : Option Nat :=
  word.valueBy? (Bit.eval? assignment)

end Word

/-- A fixed assignment together with the values of the wires visited so far, each of
them recorded under the key of its wire. -/
structure Evaluator (Key : Type := Wire) [BEq Key] [Hashable Key] where
  assignment : Assignment
  visited : Std.HashMap Key (Option Bool)

namespace Evaluator

section

variable {Key : Type} [BEq Key] [Hashable Key]

/-- An evaluator that has visited no wire. -/
def new (assignment : Assignment) : Evaluator Key where
  assignment := assignment
  visited := ∅

/-- Use the value recorded under a key, or compute and record it. -/
@[specialize]
def remember (key : Key) (compute : StateM (Evaluator Key) (Option Bool)) :
    StateM (Evaluator Key) (Option Bool) := do
  match (← get).visited[key]? with
  | some value => return value
  | none =>
      let value ← compute
      modify fun evaluator => { evaluator with visited := evaluator.visited.insert key value }
      return value

variable (key : Wire -> Key)

/-- The three-valued reading of a bit. -/
@[specialize]
def bitBy : Bit -> StateM (Evaluator Key) (Option Bool)
  | .literal value => pure (some value)
  | .var id => return (← get).assignment.get? id
  | .notGate wire input => do
      return (← remember (key ⟨wire, input⟩) (bitBy input)).map (!·)
  | .andGate leftWire left rightWire right => do
      match ← remember (key ⟨leftWire, left⟩) (bitBy left) with
      | some false => return some false
      | value =>
          return Bit.conjoin? value (← remember (key ⟨rightWire, right⟩) (bitBy right))

/-- The values of bits from first to last, up to the first that has none. -/
@[specialize]
def bitsBy : List Bit -> StateM (Evaluator Key) (Option (List Bool))
  | [] => pure (some [])
  | first :: rest => do
      match ← bitBy key first with
      | none => return none
      | some value => return (← bitsBy rest).map (value :: ·)

/-- The number that a word of at most `Word.knownBits` bits denotes. -/
@[specialize]
def wordBy (word : Word) : StateM (Evaluator Key) (Option Nat) := do
  if word.width ≤ Word.knownBits then
    return (← bitsBy key word.bits).map Word.ofBools
  else
    return none

end

def bit : Bit -> StateM Evaluator (Option Bool) :=
  bitBy id

def word : Word -> StateM Evaluator (Option Nat) :=
  wordBy id

end Evaluator
end SymbolicMachine
