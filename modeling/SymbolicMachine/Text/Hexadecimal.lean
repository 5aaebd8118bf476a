namespace SymbolicMachine
namespace Text

/-!
# Hexadecimal numbers

Numbers in base sixteen are written with lower-case digits behind `0x`.
-/

/-- A number in base sixteen, with zeros in front up to the given count of
digits. -/
def hexadecimal (digits value : Nat) : String :=
  let written := Nat.toDigits 16 value
  "0x" ++ String.ofList (List.replicate (digits - written.length) '0' ++ written)

example : hexadecimal 1 0 = "0x0" := by decide

example : hexadecimal 2 10 = "0x0a" := by decide

end Text
end SymbolicMachine
