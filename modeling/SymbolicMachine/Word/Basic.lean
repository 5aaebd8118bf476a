import SymbolicMachine.Bit.Gates

namespace SymbolicMachine

/-!
# Symbolic words

A word is a list of bits, least significant first.  The operations of this
module only move bits about: they build no gates, and apart from an index
outside of the word none of them can be misused.

A word whose bits are all literals is *known*.  Its value is reported as long as
it fits into `knownBits` bits.
-/

/-- Bits with the least significant one first. -/
structure Word where
  bits : List Bit
  deriving DecidableEq, Repr, Inhabited

namespace Word

/-- Number of bits. -/
def width (word : Word) : Nat :=
  word.bits.length

/-- The low `width` bits of a number. -/
def constant (value width : Nat) : Word where
  bits := (List.range width).map fun index => .literal (value.testBit index)

/-- The word of `width` zero bits. -/
def zero (width : Nat) : Word where
  bits := List.replicate width .zero

/-- A word of `width` variables that nothing else in the session uses. -/
def fresh (width : Nat) : Build Word := do
  let first ← freshVariables width
  return { bits := (List.range' first width).map .var }

/-- A word of one bit. -/
def ofBit (bit : Bit) : Word where
  bits := [bit]

/-- The widest word whose value is reported as a number. -/
def knownBits : Nat := 64

/-- The number with the given bits, least significant first. -/
def ofBools : List Bool -> Nat
  | [] => 0
  | bit :: rest => bit.toNat + 2 * ofBools rest

/-- The number that a word of at most `knownBits` bits gets from a valuation of
its bits, provided that each of them has a value. -/
def valueBy? (value? : Bit -> Option Bool) (word : Word) : Option Nat :=
  if word.width ≤ knownBits then (word.bits.mapM value?).map ofBools else none

/-- The value of a word of literals. -/
def known (word : Word) : Option Nat :=
  word.valueBy? Bit.known

/-- Both words have the same width and pairwise identical bits. -/
def identical (left right : Word) : Bool :=
  left.width == right.width && (left.bits.zip right.bits).all fun (x, y) => x.identical y

/-- The bit at an index. -/
def bit (word : Word) (index : Nat) : Checked Bit :=
  match word.bits[index]? with
  | some bit => pure bit
  | none => throw .bitOutOfRange

/-- Replace the bit at an index. -/
def withBit (word : Word) (index : Nat) (bit : Bit) : Checked Word := do
  require (index < word.width) .bitOutOfRange
  return { bits := word.bits.set index bit }

/-- Move every bit up by `amount` places, dropping what leaves the word. -/
def shiftLeft (word : Word) (amount : Nat) : Word where
  bits := List.replicate (min amount word.width) .zero ++
    word.bits.take (word.width - amount)

/-- Move every bit down by `amount` places, dropping what leaves the word. -/
def shiftRight (word : Word) (amount : Nat) : Word where
  bits := word.bits.drop amount ++ List.replicate (min amount word.width) .zero

/-- Add `amount` zero bits at the top. -/
def zeroExtend (word : Word) (amount : Nat) : Word where
  bits := word.bits ++ List.replicate amount .zero

/-- Move every bit down by one place.  The carry enters at the top and the
lowest bit leaves as the new carry. -/
def rotateRight (word : Word) (carry : Bit) : Checked (Word × Bit) :=
  match word.bits with
  | [] => throw .bitOutOfRange
  | lowest :: rest => pure ({ bits := rest ++ [carry] }, lowest)

end Word
end SymbolicMachine
