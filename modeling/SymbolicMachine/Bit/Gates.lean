import SymbolicMachine.Bit.Basic

namespace SymbolicMachine
namespace Bit

/-!
# Gates

Every connective is built from negation and conjunction, which simplify where
the outermost gates of their operands allow it.  Only `placeNot` and `placeAnd`
create gates, and each operand of a new gate arrives on a wire of its own.
Building a connective twice therefore gives two circuits that are not identical,
unless simplification returns an operand or a literal.
-/

/-- Place a negation gate without looking at its operand. -/
def placeNot (input : Bit) : Build Bit := do
  let wire ← freshName
  return notGate wire input

/-- Place a conjunction gate without looking at its operands. -/
def placeAnd (left right : Bit) : Build Bit := do
  let leftWire ← freshName
  let rightWire ← freshName
  return andGate leftWire left rightWire right

/-- Negation.  A literal is flipped and a second negation cancels the first. -/
def not : Bit -> Build Bit
  | literal value => pure (literal (!value))
  | notGate _ input => pure input
  | bit => placeNot bit

/-- The conjunction of two bits where no gate is needed for it: one operand is a
literal, both are identical, or one negates the other. -/
def conjunction? (left right : Bit) : Option Bit :=
  if left.identical right then some left
  else match left with
    | literal false => some zero
    | literal true => some right
    | _ =>
        if left.negates right then some zero
        else match right with
          | literal false => some zero
          | literal true => some left
          | _ => if right.negates left then some zero else none

/-- Conjunction, simplified where `conjunction?` applies. -/
def and (left right : Bit) : Build Bit :=
  match conjunction? left right with
  | some bit => pure bit
  | none => placeAnd left right

/-- Disjunction, as the negated conjunction of the negations. -/
def or (left right : Bit) : Build Bit := do
  let noLeft ← left.not
  let noRight ← right.not
  let neither ← noLeft.and noRight
  neither.not

/-- Exclusive disjunction: one operand holds and the other does not. -/
def xor (left right : Bit) : Build Bit := do
  let noRight ← right.not
  let onlyLeft ← left.and noRight
  let noLeft ← left.not
  let onlyRight ← noLeft.and right
  onlyLeft.or onlyRight

/-- Both operands hold, or neither does.  No gate is placed for operands known
to be identical. -/
def equals (left right : Bit) : Build Bit :=
  if left.identical right then pure one
  else do
    let both ← left.and right
    let noLeft ← left.not
    let noRight ← right.not
    let neither ← noLeft.and noRight
    both.or neither

/-- Choose between two bits by a condition.  A choice between identical bits does
not depend on the condition and a known condition leaves no choice. -/
def select (condition whenTrue whenFalse : Bit) : Build Bit :=
  if whenTrue.identical whenFalse then pure whenTrue
  else match condition with
    | literal true => pure whenTrue
    | literal false => pure whenFalse
    | _ => do
        let taken ← condition.and whenTrue
        let otherwise ← condition.not
        let notTaken ← otherwise.and whenFalse
        taken.or notTaken

/-- Material implication. -/
def implies (premise conclusion : Bit) : Build Bit := do
  let excused ← premise.not
  excused.or conclusion

end Bit
end SymbolicMachine
