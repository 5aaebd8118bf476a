import SymbolicMachine.Word.Basic

namespace SymbolicMachine
namespace Word

/-!
# Arithmetic and comparison of words

Binary operations require operands of one width.  That check comes first and is
the only way in which they can be misused: what follows it is a construction
over the paired bits that always succeeds.

Each occurrence of a connective below is a construction of its own, even where
the same operands occur twice.
-/

/-- Continue only with operands of one width, and pair their bits. -/
def paired (left right : Word) : Checked (List (Bit × Bit)) := do
  require (left.width == right.width) (.differentWidths left.width right.width)
  return left.bits.zip right.bits

/-! ## Bitwise operations -/

/-- Negate every bit. -/
def not (word : Word) : Build Word := do
  return { bits := ← word.bits.mapM Bit.not }

/-- Combine paired bits place by place. -/
def combine (connective : Bit -> Bit -> Build Bit) (pairs : List (Bit × Bit)) :
    Build (List Bit) :=
  pairs.mapM fun (x, y) => connective x y

/-- Combine the bits of two words place by place. -/
def bitwise (connective : Bit -> Bit -> Build Bit) (left right : Word) : Checked Word := do
  let pairs ← paired left right
  return { bits := ← combine connective pairs }

def and (left right : Word) : Checked Word := bitwise Bit.and left right

def or (left right : Word) : Checked Word := bitwise Bit.or left right

def xor (left right : Word) : Checked Word := bitwise Bit.xor left right

/-- Choose between two words by a condition. -/
def select (condition : Bit) (whenTrue whenFalse : Word) : Checked Word :=
  bitwise condition.select whenTrue whenFalse

/-! ## Addition -/

/-- Add paired bits from the lowest place up, returning the sum bits and the
last carry. -/
def rippleAdd (carry : Bit) : List (Bit × Bit) -> Build (List Bit × Bit)
  | [] => pure ([], carry)
  | (x, y) :: rest => do
      let halfSum ← x.xor y
      let sum ← halfSum.xor carry
      let generated ← x.and y
      let propagates ← x.xor y
      let propagated ← carry.and propagates
      let next ← generated.or propagated
      let (sums, last) ← rippleAdd next rest
      return (sum :: sums, last)

/-- The sum of two words and a carry, with the carry out of the top place. -/
def addWithCarry (left right : Word) (carry : Bit) : Checked (Word × Bit) := do
  let pairs ← paired left right
  let (sums, last) ← rippleAdd carry pairs
  return ({ bits := sums }, last)

/-- The sum of two words, dropping the carry out of the top place. -/
def add (left right : Word) : Checked Word := do
  return (← addWithCarry left right .zero).1

/-- The difference of two words, as the sum with the negated subtrahend and a
carry. -/
def sub (left right : Word) : Checked Word := do
  let inverted ← right.not
  return (← addWithCarry left inverted .one).1

/-! ## Multiplication -/

/-- Add to `product` the multiplicand shifted to `place`, if `selector` holds. -/
def addPartialProduct (multiplicand product : Word) (selector : Bit) (place : Nat) :
    Build Word := do
  let shifted := multiplicand.shiftLeft place
  let terms ← shifted.bits.mapM fun bit => selector.select bit .zero
  let (sums, _) ← rippleAdd .zero (product.bits.zip terms)
  return { bits := sums }

/-- Add up the partial products for selectors that start at `place`. -/
def addPartialProducts (multiplicand : Word) :
    (product : Word) -> (place : Nat) -> List Bit -> Build Word
  | product, _, [] => pure product
  | product, place, selector :: rest => do
      let next ← addPartialProduct multiplicand product selector place
      addPartialProducts multiplicand next (place + 1) rest

/-- The product of two words, dropping what exceeds their width. -/
def mul (left right : Word) : Checked Word := do
  require (left.width == right.width) (.differentWidths left.width right.width)
  addPartialProducts left (zero left.width) 0 right.bits

/-! ## Comparison -/

/-- All paired bits are equal. -/
def allEqual (pairs : List (Bit × Bit)) : Build Bit :=
  pairs.foldlM (fun equal (x, y) => do equal.and (← x.equals y)) .one

/-- Whether two words have the same value. -/
def equals (left right : Word) : Checked Bit := do
  let pairs ← paired left right
  allEqual pairs

/-- Whether two words have different values. -/
def differs (left right : Word) : Checked Bit := do
  let equal ← equals left right
  equal.not

/-- Decide the order of paired bits from the lowest place up, so that the highest
place that differs has the last word. -/
def rippleLess (pairs : List (Bit × Bit)) : Build Bit :=
  pairs.foldlM
    (fun less (x, y) => do
      let differs ← (← x.equals y).not
      let smaller ← (← x.not).and y
      differs.select smaller less)
    .zero

/-- Whether one word is smaller than the other as an unsigned number. -/
def lessThan (left right : Word) : Checked Bit := do
  let pairs ← paired left right
  rippleLess pairs

end Word
end SymbolicMachine
