import SymbolicMachine.Memory.Strategy

namespace SymbolicMachine

/-!
# The journal of a session

Execution and verification report what they do as events.  An event is kept as
data; its level and its wording are functions of it, so a statement about the
journal never has to take text apart.
-/

/-- How much attention an event deserves. -/
inductive Level where
  | debug
  | info
  deriving DecidableEq, Repr

namespace Level

/-- The word that opens a journal line of this level. -/
def name : Level -> String
  | debug => "DEBUG"
  | info => "INFO"

end Level

/-- Something that execution or verification reports. -/
inductive Event where
  /-- The step limit was reached with this many threads still pending. -/
  | abandoned (pc pending : Nat)
  /-- A branch could not be decided and both successors were scheduled. -/
  | forked (pc destination next : Nat)
  /-- Two threads met at the same instruction. -/
  | merged (pc : Nat)
  /-- A thread executed a halt instruction. -/
  | halted (pc : Nat)
  /-- Every thread has halted. -/
  | finished (steps forks merges : Nat)
  /-- The multiplier is about to run. -/
  | multiplying (strategy : Strategy) (listing : String)
  /-- The precondition of an obligation can never hold. -/
  | vacuous
  /-- The decider accepted the obligation. -/
  | proved
  /-- The decider refuted the obligation. -/
  | refuted
  deriving DecidableEq, Repr

namespace Event

/-- Steps of a run are details; outcomes are not. -/
def level : Event -> Level
  | abandoned .. | forked .. | merged .. | halted .. | multiplying .. => .debug
  | finished .. | vacuous | proved | refuted => .info

/-- What an event says. -/
def message : Event -> String
  | abandoned pc pending =>
      s!"Abandoning execution at {pc} with {pending} pending threads"
  | forked pc destination next =>
      s!"Forking at {pc}: paths continue at {destination} and {next}"
  | merged pc => s!"Merging paths at {pc}"
  | halted pc => s!"Path halted at {pc}"
  | finished steps forks merges =>
      s!"Execution halted after {steps} steps with {forks} forks and {merges} merges"
  | multiplying strategy listing =>
      s!"Running multiplier with {strategy.name} memory:\n{listing}"
  | vacuous => "Obligation is vacuous: the addresses always alias"
  | proved => "Multiplier proved correct"
  | refuted => "Multiplier has a counterexample"

/-- The journal line of an event: its level and what it says. -/
def line (event : Event) : String :=
  s!"{event.level.name} {event.message}"

end Event
end SymbolicMachine
