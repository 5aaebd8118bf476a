import SymbolicMachine.Program.Basic

namespace SymbolicMachine

/-!
# Assembly

An assembly source is a sequence of items: instructions, branches to labels, and
labels, each of which stands for the number of the instruction that comes next.
Assembling resolves the branches, forward and backward alike.

Errors are looked for in a fixed order: a label placed again, then a label placed
nowhere, then a branch that leads past the end.
-/

namespace Assembly

/-- One item of an assembly source. -/
inductive Item where
  /-- The next instruction is known under this name. -/
  | label (name : String)
  /-- An instruction that refers to no label. -/
  | instruction (instruction : Instruction)
  /-- A branch to a label, taken if a flag is clear. -/
  | branchIfClear (flag : Flag) (label : String)
  deriving DecidableEq, Repr

/-- The names that a source places, in order. -/
def placedNames (items : List Item) : List String :=
  items.filterMap fun
    | .label name => some name
    | _ => none

/-- The first name that occurs among `seen` or for a second time. -/
def firstRepeated? (seen : List String) : List String -> Option String
  | [] => none
  | name :: rest => if seen.contains name then some name else firstRepeated? (name :: seen) rest

/-- The names that a source places, each with the number of the instruction that
it stands for, where `pc` instructions came before. -/
def placements (pc : Nat) : List Item -> List (String × Nat)
  | [] => []
  | .label name :: rest => (name, pc) :: placements pc rest
  | _ :: rest => placements (pc + 1) rest

/-- The instructions of a source with every label replaced by the number that it
stands for, where `pc` instructions came before. -/
def resolve (places : List (String × Nat)) (pc : Nat) :
    List Item -> Except ProgramError (List Instruction)
  | [] => return []
  | .label _ :: rest => resolve places pc rest
  | .instruction instruction :: rest => do
      return instruction :: (← resolve places (pc + 1) rest)
  | .branchIfClear flag label :: rest =>
      match places.lookup label with
      | none => throw (.undefinedLabel label pc)
      | some target => do
          return .branchIfClear flag target :: (← resolve places (pc + 1) rest)

/-- List a name for an instruction, unless a greater one is listed for it. -/
def listOne (labels : Table String) (entry : String × Nat) : Table String :=
  match labels.get? entry.2 with
  | some other => if other < entry.1 then labels.insert entry.2 entry.1 else labels
  | none => labels.insert entry.2 entry.1

/-- The label that is listed for each instruction: of several names for one, the
lexicographically greatest. -/
def listedLabels (places : List (String × Nat)) : Table String :=
  places.foldl listOne .empty

/-- The program that a source describes. -/
def assemble (items : List Item) : Except ProgramError Program :=
  match firstRepeated? [] (placedNames items) with
  | some name => throw (.duplicateLabel name)
  | none => do
      let places := placements 0 items
      let instructions ← resolve places 0 items
      Program.withLabels instructions (listedLabels places)

end Assembly
end SymbolicMachine
