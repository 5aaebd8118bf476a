namespace SymbolicMachine
namespace Text

/-!
# Numerals

Unsigned decimal numbers below a bound.  One plus sign may stand in front.  Digits
are read from left to right and reading stops at the first fault: a character that
is no digit, or a digit with which the number reaches the bound.
-/

/-- Why a text is not an unsigned number below the bound. -/
inductive NumeralError where
  /-- There is nothing to read. -/
  | empty
  /-- A character is no digit. -/
  | invalidDigit
  /-- The number reaches the bound. -/
  | tooLarge
  deriving DecidableEq, Repr

namespace NumeralError

/-- What a numeral error says. -/
def message : NumeralError -> String
  | empty => "cannot parse integer from empty string"
  | invalidDigit => "invalid digit found in string"
  | tooLarge => "number too large to fit in target type"

end NumeralError

/-- The value of a decimal digit. -/
def digit? (character : Char) : Option Nat :=
  if character.isDigit then some (character.toNat - '0'.toNat) else none

/-- Append digits to a number, staying below the bound. -/
def readDigits (bound : Nat) : (number : Nat) -> List Char -> Except NumeralError Nat
  | number, [] => return number
  | number, character :: rest =>
      match digit? character with
      | none => throw .invalidDigit
      | some digit =>
          let longer := 10 * number + digit
          if longer < bound then readDigits bound longer rest else throw .tooLarge

/-- Read an unsigned number below the bound. -/
def readNumeral (bound : Nat) (text : String) : Except NumeralError Nat :=
  match text.toList with
  | [] => throw .empty
  | ['+'] => throw .invalidDigit
  | '+' :: digits => readDigits bound 0 digits
  | digits => readDigits bound 0 digits

end Text
end SymbolicMachine
