import SymbolicMachine.Proofs.Exploration

namespace SymbolicMachine

/-!
# Runs with few threads

As long as no branch is undecided, a run has one thread, and a step only moves it: the place
where it goes on is free, so nothing is joined and nothing but the visit is counted.  A
branch forward that cannot be decided makes two threads of one.  The thread behind the branch
goes first, and when it comes to the destination, both become one again.

The lemmas of this module say so for each part of a step.  What the end of an exploration
means for the run is the same for any number of threads.
-/

namespace Progress

variable {progress : Progress} {pc : Nat} {thread : Thread} {trace : Trace}

/-- A run of which no thread is in its place. -/
def idle (trace : Trace) : Progress where
  pending := .empty
  trace := trace

/-- A run with one thread. -/
def alone (control : Control) (thread : Thread) (trace : Trace) : Progress :=
  match control with
  | .running pc => { idle trace with pending := Table.empty.insert pc thread }
  | .halted => { idle trace with halted := some thread }

/-- The only pending thread is the first one. -/
theorem popFirst?_alone (pc : Nat) (thread : Thread) (trace : Trace) :
    (alone (.running pc) thread trace).pending.popFirst? = some ((pc, thread), .empty) :=
  rfl

/-- A thread goes on alone where none is pending. -/
theorem schedule_of_vacant (vacant : progress.pending.get? pc = none) :
    progress.schedule pc thread =
      pure { progress with pending := progress.pending.insert pc thread } := by
  rw [schedule, scheduleBy, vacant]

theorem schedule_idle (pc : Nat) (thread : Thread) (trace : Trace) :
    (idle trace).schedule pc thread = pure (alone (.running pc) thread trace) :=
  schedule_of_vacant rfl

theorem retire_idle (pc : Nat) (thread : Thread) (trace : Trace) :
    Succeeds ((idle trace).retire pc thread) fun next => next = alone .halted thread trace :=
  Succeeds.report_bind _ (.pure rfl)

/-- A decided branch is followed. -/
theorem follow_of_known {condition : Bit} {taken : Bool} (known : condition.known = some taken)
    (destination : Nat) :
    progress.follow pc thread condition destination =
      progress.schedule (if taken then destination else pc + 1) thread := by
  rw [follow, followBy, known]
  cases taken <;> rfl

/-! ## Two threads -/

/-- A run with two threads, of which the first goes first if it is at the lower number. -/
def abreast (pc : Nat) (first : Thread) (ahead : Nat) (second : Thread) (trace : Trace) :
    Progress :=
  { alone (.running ahead) second trace with
    pending := (Table.empty.insert ahead second).insert pc first }

variable {ahead : Nat} {first second : Thread}

theorem popFirst?_abreast (ordered : pc < ahead) (first second : Thread) (trace : Trace) :
    (abreast pc first ahead second trace).pending.popFirst? =
      some ((pc, first), Table.empty.insert ahead second) :=
  Table.popFirst?_insert_insert ordered first second

theorem schedule_alone (different : pc ≠ ahead) (first second : Thread) (trace : Trace) :
    (alone (.running ahead) second trace).schedule pc first =
      pure (abreast pc first ahead second trace) := by
  apply schedule_of_vacant
  have elsewhere : (Table.empty.insert ahead second).get? pc = Table.empty.get? pc := by
    rw [Table.get?_insert, if_neg different]
  exact elsewhere

/-- Two threads that come to one place are joined there. -/
theorem schedule_join {property : Thread -> Prop} (joins : Succeeds (first.join second) property)
    (pc : Nat) (trace : Trace) :
    Succeeds ((alone (.running pc) first trace).schedule pc second) fun next =>
      ∃ joined, next = alone (.running pc) joined trace.merge ∧ property joined := by
  have pending : (alone (.running pc) first trace).pending.get? pc = some first := by
    rw [alone, Table.get?_insert, if_pos rfl]
  unfold schedule scheduleBy
  rw [pending]
  apply Succeeds.report_bind
  apply joins.bind
  intro joined holds
  apply Succeeds.pure
  refine ⟨joined, ?_, holds⟩
  rw [alone, alone, Table.insert_insert]
  rfl

/-- A branch that is not decided lets the thread go on at both places, under whatever predicates
come of it. -/
theorem follow_of_unknown {condition : Bit} {destination : Nat} {property : Progress -> Prop}
    (unknown : condition.known = none)
    (scheduled : ∀ taken notTaken,
      Succeeds (do
        let scheduled ← schedule { progress with trace := progress.trace.fork } destination
          { thread with predicate := taken }
        scheduled.schedule (pc + 1) { thread with predicate := notTaken }) property) :
    Succeeds (progress.follow pc thread condition destination) property := by
  unfold follow followBy
  rw [unknown]
  apply Succeeds.report_bind
  apply (Succeeds.lift (.any _)).bind
  intro taken _
  apply (Succeeds.lift (.any _)).bind
  intro negated _
  apply (Succeeds.lift (.any _)).bind
  intro notTaken _
  exact scheduled taken notTaken

/-- An undecided branch forward leaves a thread at its destination and goes on behind it. -/
theorem follow_idle_of_unknown {condition : Bit} {destination : Nat}
    (unknown : condition.known = none) (forward : pc + 1 ≠ destination) (thread : Thread)
    (trace : Trace) :
    Succeeds ((idle trace).follow pc thread condition destination) fun next =>
      ∃ taken notTaken, next = abreast (pc + 1) { thread with predicate := notTaken } destination
        { thread with predicate := taken } trace.fork := by
  apply follow_of_unknown unknown
  intro taken notTaken
  change Succeeds ((idle trace.fork).schedule destination { thread with predicate := taken } >>=
    fun scheduled => scheduled.schedule (pc + 1) { thread with predicate := notTaken }) _
  rw [schedule_idle, pure_bind, schedule_alone forward]
  exact .pure ⟨taken, notTaken, rfl⟩

/-! ## The end of a run -/

/-- What a run that has come to its end gives. -/
def conclusion (progress : Progress) : Except ExecutionError Execution :=
  match progress.halted with
  | none => .error .noHalt
  | some thread => .ok ⟨thread.predicate, thread.machine, progress.trace⟩

end Progress

/-- A run makes of the last state of its exploration what this state amounts to. -/
theorem Program.run_eq_explore (program : Program) (machine : Machine) (limit : Nat) (session : Session) :
    ((program.run machine limit).run.run.run session).1 =
      ((program.explore limit limit (.start machine)).run.run.run session).1.map
        fun explored => explored.bind Progress.conclusion := by
  unfold Program.run
  rw [ExceptT.run_bind, ExceptT.run_bind, StateT.run_bind]
  cases (program.explore limit limit (.start machine)).run.run.run session with
  | mk outcome later =>
      cases outcome with
      | error misuse => rfl
      | ok explored =>
          cases explored with
          | error cause => rfl
          | ok last =>
              rcases last with ⟨pending, halted, trace⟩
              cases halted with
              | none => rfl
              | some thread => rfl

/-- A run gives what its exploration ends with. -/
theorem Program.run_ends {program : Program} {machine : Machine} {limit : Nat}
    {property : Except ExecutionError Execution -> Prop}
    (explored : Ends (program.explore limit limit (.start machine)) fun outcome =>
      property (outcome.bind Progress.conclusion)) :
    Ends (program.run machine limit) property := by
  intro session
  rcases explored session with ⟨outcome, ended, holds⟩
  refine ⟨outcome.bind Progress.conclusion, ?_, holds⟩
  rw [run_eq_explore, ended]
  rfl

end SymbolicMachine
