import SymbolicMachine.Journal
import SymbolicMachine.Machine.Component

namespace SymbolicMachine

/-!
# Building sessions

Circuits are built within a session.  A session hands out names for wires and
array nodes, hands out identifiers for input variables, and keeps the journal.
Every name is handed out once, so two parts of a circuit carry the same name
only if they are copies of one construction.

`Build` is the monad of constructions that always succeed.  `Checked` adds
misuse: operands of the wrong width, a bit index outside of its word, memories
of different shapes.  A misuse ends the construction, but whatever the session
has handed out or journalled up to then stays.
-/

/-- What a session has handed out so far, and what it has reported. -/
structure Session where
  /-- The next unused name of a wire or array node. -/
  nextName : Nat := 0
  /-- The next unused variable identifier. -/
  nextVariable : Nat := 0
  /-- Reported events, newest first. -/
  events : List Event := []
  deriving DecidableEq, Repr

namespace Session

/-- The journal in the order in which it was written. -/
def journal (session : Session) : List Event :=
  session.events.reverse

end Session

/-- A construction that always succeeds. -/
abbrev Build := StateM Session

/-- Take a name that nothing else in the session carries. -/
def freshName : Build Nat :=
  modifyGet fun session =>
    (session.nextName, { session with nextName := session.nextName + 1 })

/-- Take `count` consecutive unused variable identifiers and return the first. -/
def freshVariables (count : Nat) : Build Nat :=
  modifyGet fun session =>
    (session.nextVariable, { session with nextVariable := session.nextVariable + count })

/-- Write an event to the journal. -/
def report (event : Event) : Build Unit :=
  modify fun session => { session with events := event :: session.events }

/-- A use of an operation outside of its domain. -/
inductive Misuse where
  /-- A binary word operation was given operands of different widths. -/
  | differentWidths (left right : Nat)
  /-- A register was given something other than a machine word. -/
  | registerWidth (register : Register) (actual : Nat)
  /-- Memory was addressed by something other than an address. -/
  | addressWidth (actual : Nat)
  /-- Memory was given something other than a machine word. -/
  | valueWidth (actual : Nat)
  /-- A bit index lies outside of its word. -/
  | bitOutOfRange
  /-- Two memories of different shapes were merged. -/
  | differentStrategies (left right : Strategy)
  deriving DecidableEq, Repr

namespace Misuse

/-- The report on two widths that should have been equal, with the reason if
one is stated. -/
def widthReport (reason : String) (left right : Nat) : String :=
  s!"assertion `left == right` failed{reason}\n  left: {left}\n right: {right}"

/-- What a misuse says. -/
def message : Misuse -> String
  | differentWidths left right => widthReport "" left right
  | registerWidth register actual =>
      widthReport s!": register {register.name} must hold a {wordBits}-bit word" actual wordBits
  | addressWidth actual =>
      widthReport s!": memory address must be {addressBits} bits" actual addressBits
  | valueWidth actual =>
      widthReport s!": memory value must be a {wordBits}-bit word" actual wordBits
  | bitOutOfRange => "out of bounds access"
  | differentStrategies left right =>
      s!"cannot merge {left.name} memory with {right.name} memory"

end Misuse

/-- A construction that ends early when an operation is misused. -/
abbrev Checked := ExceptT Misuse Build

/-- Continue only if `condition` holds, otherwise end with `misuse`. -/
def require (condition : Bool) (misuse : Misuse) : Checked Unit :=
  if condition then pure () else throw misuse

end SymbolicMachine
