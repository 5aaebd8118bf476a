import SymbolicMachine.Machine.Instruction
import SymbolicMachine.Table

namespace SymbolicMachine

/-!
# Programs

A program is a sequence of instructions, numbered from zero, in which every
branch leads to one of them.  Some instructions carry a label.  Labels affect the
listing only: branches have been resolved to numbers.
-/

/-- Why instructions do not make up a program. -/
inductive ProgramError where
  /-- An instruction refers to a label that is placed nowhere. -/
  | undefinedLabel (label : String) (pc : Nat)
  /-- A label is placed more than once. -/
  | duplicateLabel (label : String)
  /-- A branch leads past the last instruction. -/
  | branchOutOfRange (pc target length : Nat)
  deriving DecidableEq, Repr

namespace ProgramError

/-- What a program error says. -/
def message : ProgramError -> String
  | undefinedLabel label pc => s!"undefined label `{label}` referenced by instruction {pc}"
  | duplicateLabel label => s!"label `{label}` is defined more than once"
  | branchOutOfRange pc target length =>
      s!"branch target {target} of instruction {pc} is outside of program with " ++
        s!"{length} instructions"

end ProgramError

/-- Instructions whose branches stay among them, with labels for the listing. -/
structure Program where
  instructions : List Instruction
  labels : Table String
  branches_inside : ∀ instruction ∈ instructions, ∀ target,
    instruction.target? = some target -> target < instructions.length
  deriving Repr

namespace Program

/-- The first instruction, counted from `pc`, whose branch leads to `length` or
beyond, with its target. -/
def strayBranch? (length : Nat) : (pc : Nat) -> List Instruction -> Option (Nat × Nat)
  | _, [] => none
  | pc, instruction :: rest =>
      match instruction.target? with
      | some target =>
          if target < length then strayBranch? length (pc + 1) rest else some (pc, target)
      | none => strayBranch? length (pc + 1) rest

/-- Without a stray branch every target lies below `length`. -/
theorem target_lt_of_strayBranch?_eq_none {length pc : Nat} {instructions : List Instruction}
    (noStray : strayBranch? length pc instructions = none) :
    ∀ instruction ∈ instructions, ∀ target,
      instruction.target? = some target -> target < length := by
  induction instructions generalizing pc with
  | nil => simp
  | cons head rest ih =>
      intro instruction member target leads
      cases found : head.target? with
      | none =>
          simp only [strayBranch?, found] at noStray
          rcases List.mem_cons.mp member with here | later
          · simp [here, found] at leads
          · exact ih noStray instruction later target leads
      | some headTarget =>
          by_cases inside : headTarget < length
          · simp only [strayBranch?, found, if_pos inside] at noStray
            rcases List.mem_cons.mp member with here | later
            · rw [here, found] at leads
              exact Option.some.inj leads ▸ inside
            · exact ih noStray instruction later target leads
          · simp [strayBranch?, found, inside] at noStray

/-- The program of the given instructions and labels, unless a branch is stray. -/
def withLabels (instructions : List Instruction) (labels : Table String) :
    Except ProgramError Program :=
  match stray : strayBranch? instructions.length 0 instructions with
  | some (pc, target) => .error (.branchOutOfRange pc target instructions.length)
  | none =>
      .ok { instructions, labels, branches_inside := target_lt_of_strayBranch?_eq_none stray }

/-- The program of the given instructions, without labels. -/
def ofInstructions (instructions : List Instruction) : Except ProgramError Program :=
  withLabels instructions .empty

/-- Number of instructions. -/
def length (program : Program) : Nat :=
  program.instructions.length

/-- The instruction of a number. -/
def get? (program : Program) (pc : Nat) : Option Instruction :=
  program.instructions[pc]?

/-- The label of an instruction, or of the end of the program. -/
def label? (program : Program) (pc : Nat) : Option String :=
  program.labels.get? pc

/-! ## Listing -/

/-- A number set flush right in four columns. -/
def column (number : Nat) : String :=
  let digits := toString number
  String.ofList (List.replicate (4 - digits.length) ' ') ++ digits

/-- How an instruction is listed: a branch names the label of its target if that
has one. -/
def instructionText (program : Program) (instruction : Instruction) : String :=
  match instruction.target?.bind program.label? with
  | some label => instruction.mnemonic ++ " " ++ label
  | none => instruction.text

/-- The lines of one instruction, with its label in front if it has one. -/
def lines (program : Program) (pc : Nat) (instruction : Instruction) : String :=
  let line := column pc ++ "    " ++ program.instructionText instruction ++ "\n"
  match program.label? pc with
  | some label => label ++ ":\n" ++ line
  | none => line

/-- The whole program, one instruction a line. -/
def listing (program : Program) : String :=
  String.join (program.instructions.zipIdx.map fun (instruction, pc) =>
    program.lines pc instruction)

end Program
end SymbolicMachine
