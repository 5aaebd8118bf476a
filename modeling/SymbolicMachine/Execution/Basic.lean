import SymbolicMachine.Execution.Thread
import SymbolicMachine.Execution.Trace
import SymbolicMachine.Program.Basic

namespace SymbolicMachine

/-!
# Execution

A run starts one thread at the first instruction and keeps at most one pending
thread an instruction.  The pending thread of the lowest instruction goes next, so
paths that part at a branch and meet again further down are joined before they go
on.  A branch whose condition is a literal is followed; any other branch forks.
Threads that halt are joined into one.

The run ends when no thread is pending.  It is abandoned when a thread is pending
and as many instructions have been executed as the limit allows.
-/

/-- Why a run gives no result. -/
inductive ExecutionError where
  /-- A thread was pending when the limit was reached. -/
  | stepLimitExceeded (limit : Nat)
  /-- A thread came to a number that has no instruction. -/
  | counterOutOfRange (pc length : Nat)
  /-- The run ended without a halted thread. -/
  | noHalt
  deriving DecidableEq, Repr

namespace ExecutionError

/-- What an execution error says. -/
def message : ExecutionError -> String
  | stepLimitExceeded limit => s!"execution exceeded step limit of {limit}"
  | counterOutOfRange pc length =>
      s!"program counter {pc} is outside of program with {length} instructions"
  | noHalt => "internal error: no path reached a halt instruction"

end ExecutionError

/-- A run that has come to its end. -/
structure Execution where
  /-- The condition under which the run halts. -/
  predicate : Bit
  /-- The machine in which the run halts. -/
  machine : Machine
  trace : Trace
  deriving Repr

/-- A run on its way. -/
structure Progress where
  /-- The threads to go on with, by the instruction that they have come to. -/
  pending : Table Thread
  /-- The threads that halted, joined into one. -/
  halted : Option Thread := none
  trace : Trace := {}
  deriving Repr

namespace Progress

/-- A run about to execute its first instruction. -/
def start (machine : Machine) : Progress where
  pending := Table.empty.insert 0 { predicate := .one, machine }

/-! How two threads are joined is a parameter of the following definitions. -/

section

variable (join : Thread -> Thread -> Checked Thread)

/-- Let a thread go on at an instruction, joined to the thread that is pending
there, if any. -/
def scheduleBy (progress : Progress) (pc : Nat) (thread : Thread) : Checked Progress :=
  match progress.pending.get? pc with
  | none => return { progress with pending := progress.pending.insert pc thread }
  | some existing => do
      report (.merged pc)
      let joined ← join existing thread
      return { progress with
        pending := progress.pending.insert pc joined
        trace := progress.trace.merge }

/-- Let a thread halt at an instruction, joined to those that halted before. -/
def retireBy (progress : Progress) (pc : Nat) (thread : Thread) : Checked Progress := do
  report (.halted pc)
  match progress.halted with
  | none => return { progress with halted := some thread }
  | some previous =>
      let joined ← join previous thread
      return { progress with halted := some joined, trace := progress.trace.merge }

/-- Let a thread go on at the destination of a branch, at the next instruction, or
at both under complementary predicates. -/
def followBy (progress : Progress) (pc : Nat) (thread : Thread) (condition : Bit)
    (destination : Nat) : Checked Progress :=
  match condition.known with
  | some true => progress.scheduleBy join destination thread
  | some false => progress.scheduleBy join (pc + 1) thread
  | none => do
      report (.forked pc destination (pc + 1))
      let taken ← thread.predicate.and condition
      let notTaken ← thread.predicate.and (← condition.not)
      let forked := { progress with trace := progress.trace.fork }
      let scheduled ← forked.scheduleBy join destination { thread with predicate := taken }
      scheduled.scheduleBy join (pc + 1) { thread with predicate := notTaken }

/-- Execute an instruction in a thread that is no longer pending. -/
def stepBy (progress : Progress) (pc : Nat) (thread : Thread) (instruction : Instruction) :
    Checked Progress := do
  let (machine, flow) ← instruction.execute thread.machine
  let visited := { progress with trace := progress.trace.visit pc }
  let thread := { thread with machine }
  match flow with
  | .next => visited.scheduleBy join (pc + 1) thread
  | .branch condition destination => visited.followBy join pc thread condition destination
  | .halt => visited.retireBy join pc thread

end

/-! A run joins two threads by `Thread.join`. -/

def schedule (progress : Progress) (pc : Nat) (thread : Thread) : Checked Progress :=
  progress.scheduleBy Thread.join pc thread

def retire (progress : Progress) (pc : Nat) (thread : Thread) : Checked Progress :=
  progress.retireBy Thread.join pc thread

def follow (progress : Progress) (pc : Nat) (thread : Thread) (condition : Bit)
    (destination : Nat) : Checked Progress :=
  progress.followBy Thread.join pc thread condition destination

def step (progress : Progress) (pc : Nat) (thread : Thread) (instruction : Instruction) :
    Checked Progress :=
  progress.stepBy Thread.join pc thread instruction

end Progress

namespace Program

/-- Go on until no thread is pending, with `remaining` of `limit` instructions still
to be executed. -/
def explore (program : Program) (limit : Nat) (remaining : Nat) (progress : Progress) :
    ExceptT ExecutionError Checked Progress :=
  match progress.pending.popFirst? with
  | none => pure progress
  | some ((pc, thread), rest) =>
      match remaining with
      | 0 => do
          report (.abandoned pc (rest.size + 1))
          throw (.stepLimitExceeded limit)
      | remaining + 1 =>
          match program.get? pc with
          | none => throw (.counterOutOfRange pc program.length)
          | some instruction => do
              let waiting := { progress with pending := rest }
              let next ← waiting.step pc thread instruction
              explore program limit remaining next

/-- Run a program on a machine, executing at most `limit` instructions. -/
def run (program : Program) (machine : Machine) (limit : Nat) :
    ExceptT ExecutionError Checked Execution := do
  let progress ← program.explore limit limit (.start machine)
  match progress.halted with
  | none => throw .noHalt
  | some thread =>
      let trace := progress.trace
      report (.finished trace.steps trace.forks trace.merges)
      return { predicate := thread.predicate, machine := thread.machine, trace }

end Program
end SymbolicMachine
