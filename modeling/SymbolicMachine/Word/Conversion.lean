import SymbolicMachine.Word.Basic

namespace SymbolicMachine

/-!
# Numbers from words

A word of literals denotes a number.  Asking for a number of a given size fails
at the lowest bit that stands in the way: one that is not a literal, or a one at
a place that the size does not have.
-/

/-- Why a word or bit does not denote a number of the wanted size. -/
inductive ConversionError where
  /-- The bit at this index is not a literal. -/
  | nonLiteral (index : Nat)
  /-- The value needs more than this many bits. -/
  | overflow (size : Nat)
  deriving DecidableEq, Repr

namespace ConversionError

/-- What a conversion error says. -/
def message : ConversionError -> String
  | nonLiteral index => s!"non-literal bit at index {index}"
  | overflow size => s!"value exceeded maximum number of bits ({size})"

end ConversionError

namespace Word

/-- Read off the number of bits that start at place `index`, for a size of `size`
bits in all. -/
def numberFrom (size : Nat) : (index : Nat) -> List Bit -> Except ConversionError Nat
  | _, [] => pure 0
  | index, bit :: rest =>
      match bit.known with
      | none => throw (.nonLiteral index)
      | some value =>
          if size ≤ index && value then throw (.overflow size)
          else return value.toNat + 2 * (← numberFrom size (index + 1) rest)

/-- The number of at most `size` bits that a word denotes. -/
def toNumber (word : Word) (size : Nat) : Except ConversionError Nat :=
  numberFrom size 0 word.bits

end Word

namespace Bit

/-- The truth value that a bit denotes. -/
def toBool (bit : Bit) : Except ConversionError Bool :=
  match bit.known with
  | some value => pure value
  | none => throw (.nonLiteral 0)

end Bit
end SymbolicMachine
