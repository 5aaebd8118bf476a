import SymbolicMachine.Table
import SymbolicMachine.Word.Basic

namespace SymbolicMachine

/-!
# Assignments

An assignment gives values to finitely many variables.  Assignments for words
match variables with values place by place; what is not a plain variable is
passed over, since it has no value of its own to set.
-/

/-- Values for finitely many variables. -/
abbrev Assignment := Table Bool

namespace Assignment

/-- The first assignment, overridden by the second. -/
def extend (first second : Assignment) : Assignment :=
  first.insertAll second.entries

/-- The entry that makes a bit take a literal's value, if the bit is a plain
variable and the other one a literal. -/
def entry? (bit literal : Bit) : Option (Nat × Bool) := do
  let id ← bit.variableId
  let value ← literal.known
  return (id, value)

/-- Match the variables of one word with the literals of another.  Places that
do not pair a variable with a literal are passed over. -/
def ofWords (unknowns literals : Word) : Assignment :=
  .ofList ((unknowns.bits.zip literals.bits).filterMap fun (bit, literal) => entry? bit literal)

/-- Make a word of variables take a value. -/
def ofValue (unknowns : Word) (value : Nat) : Assignment :=
  ofWords unknowns (.constant value unknowns.width)

end Assignment
end SymbolicMachine
