namespace SymbolicMachine
namespace Text

/-!
# Blanks

The characters of the Unicode property `White_Space`, and the removal of blanks at
both ends of a text.
-/

/-- The ranges of blank characters, as code points. -/
def blankRanges : List (Nat × Nat) :=
  [(0x0009, 0x000D), (0x0020, 0x0020), (0x0085, 0x0085), (0x00A0, 0x00A0),
   (0x1680, 0x1680), (0x2000, 0x200A), (0x2028, 0x2029), (0x202F, 0x202F),
   (0x205F, 0x205F), (0x3000, 0x3000)]

/-- A character of the property `White_Space`. -/
def isBlank (character : Char) : Bool :=
  blankRanges.any fun (first, last) => first ≤ character.toNat && character.toNat ≤ last

/-- A text without the blanks at its ends. -/
def trim (text : String) : String :=
  let fromFirst := text.toList.dropWhile isBlank
  String.ofList (fromFirst.reverse.dropWhile isBlank).reverse

example : (blankRanges.map fun (first, last) => last + 1 - first).sum = 25 := by decide

end Text
end SymbolicMachine
