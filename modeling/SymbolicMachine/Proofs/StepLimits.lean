import SymbolicMachine.Proofs.RepeatedRuns
import SymbolicMachine.Proofs.RunOutcomes

namespace SymbolicMachine

/-!
# Limits on the number of instructions

The limit decides only whether a run is abandoned.  A conclusion is about a state through which the
run passes, and the run passes through the same states under every limit; a limit that admits such a
state is not consulted again.  So whatever a run concludes with, other than being abandoned, it
concludes with under every larger limit, and a run with a result is abandoned under just those
limits that its steps exceed.

The runs that are compared need not take place in the same session.
-/

namespace Program

variable {program : Program} {machine : Machine} {session first second : Session}
  {limit larger : Nat}

/-- A run that is not abandoned has the same outcome under a larger limit. -/
theorem Concludes.prolong {outcome : Except Misuse (Except ExecutionError Execution)}
    (concludes : program.Concludes machine session limit outcome) (more : limit ≤ larger)
    (kept : outcome ≠ .ok (.error (.stepLimitExceeded limit))) :
    program.Concludes machine session larger outcome := by
  cases concludes with
  | halted iterates within popped halted =>
      exact .halted iterates (Nat.le_trans within more) popped halted
  | abandoned => exact absurd rfl kept
  | outside iterates within popped found =>
      exact .outside iterates (Nat.lt_of_lt_of_le within more) popped found
  | misused iterates within popped found misused =>
      exact .misused iterates (Nat.lt_of_lt_of_le within more) popped found misused

theorem run_eq_of_le {outcome : Except Misuse (Except ExecutionError Execution)}
    (ended : ((program.run machine limit).run.run.run session).1 = outcome) (more : limit ≤ larger)
    (kept : outcome ≠ .ok (.error (.stepLimitExceeded limit))) :
    ((program.run machine larger).run.run.run session).1 = outcome :=
  ((run_eq_iff.mp ended).prolong more kept).run_eq

/-- A run with a result is abandoned under the limits that its steps exceed, and has this result
under all others. -/
theorem run_eq_of_ok {execution : Execution}
    (ended : ((program.run machine limit).run.run.run session).1 = .ok (.ok execution))
    (other : Nat) :
    ((program.run machine other).run.run.run session).1 =
      if execution.trace.steps ≤ other then .ok (.ok execution)
      else .ok (.error (.stepLimitExceeded other)) := by
  cases run_eq_iff.mp ended with
  | halted iterates _ popped halted =>
      rw [iterates.run_eq_of_drained popped halted, iterates.steps_eq]

/-! ## In another session -/

theorem Repeatable.run_eq_ok {execution : Execution}
    (repeatable : program.Repeatable machine first second)
    (ended : ((program.run machine limit).run.run.run first).1 = .ok (.ok execution)) :
    ∃ repeated, ((program.run machine limit).run.run.run second).1 = .ok (.ok repeated) ∧
      execution.SameShape repeated := by
  have alike := repeatable.outcomes_alike limit
  rw [ended] at alike
  exact alike.exists_of_ok

theorem Repeatable.run_eq_error {cause : ExecutionError}
    (repeatable : program.Repeatable machine first second)
    (ended : ((program.run machine limit).run.run.run first).1 = .ok (.error cause)) :
    ((program.run machine limit).run.run.run second).1 = .ok (.error cause) := by
  have alike := repeatable.outcomes_alike limit
  rw [ended] at alike
  exact alike.eq_of_error

/-- The limit is nothing but a cut-off.  A run that has a result, or that leaves the program, does so
under every larger limit, with the same trace, the same circuit for the predicate and the same
circuits in the machine.  A run with a result is abandoned under every limit below the number of its
steps, and under no other. -/
theorem limit_only_cuts_off (program : Program) (machine : Machine) (first second : Session)
    (repeatable : program.Repeatable machine first second) :
    (∀ limit larger, limit ≤ larger ->
      (∀ execution, ((program.run machine limit).run.run.run first).1 = .ok (.ok execution) ->
        ∃ repeated, ((program.run machine larger).run.run.run second).1 = .ok (.ok repeated) ∧
          execution.SameShape repeated) ∧
      ∀ pc length,
        ((program.run machine limit).run.run.run first).1 =
          .ok (.error (.counterOutOfRange pc length)) ->
        ((program.run machine larger).run.run.run second).1 =
          .ok (.error (.counterOutOfRange pc length))) ∧
    ∀ limit execution, ((program.run machine limit).run.run.run first).1 = .ok (.ok execution) ->
      ∀ other,
        (other < execution.trace.steps ->
          ((program.run machine other).run.run.run second).1 =
            .ok (.error (.stepLimitExceeded other))) ∧
        (execution.trace.steps ≤ other ->
          ∃ repeated, ((program.run machine other).run.run.run second).1 = .ok (.ok repeated) ∧
            execution.SameShape repeated) := by
  constructor
  · intro limit larger more
    constructor
    · intro execution ended
      exact repeatable.run_eq_ok (run_eq_of_le ended more (by simp))
    · intro pc length ended
      exact repeatable.run_eq_error (run_eq_of_le ended more (by simp))
  · intro limit execution ended other
    have decided := run_eq_of_ok ended other
    constructor
    · intro fewer
      rw [if_neg (Nat.not_le_of_lt fewer)] at decided
      exact repeatable.run_eq_error decided
    · intro enough
      rw [if_pos enough] at decided
      exact repeatable.run_eq_ok decided

end Program

/-- A machine whose carry flag is a negation. -/
def Machine.negatedCarry : Machine :=
  { Machine.openCarry with carry := .notGate 0 (.var 0) }

/-- The run of three instructions is abandoned at two of them and has a result under a larger limit,
in a session that has handed out more names.  The run that leaves the program does so there too. -/
theorem Program.limit_only_cuts_off_negatedCarry :
    let first : Session := { nextName := 1 }
    let second : Session := { nextName := 7 }
    rotateIfSet.Repeatable .negatedCarry first second ∧
    branchToNext.Repeatable .negatedCarry first second ∧
    (∃ execution, ((rotateIfSet.run .negatedCarry 3).run.run.run first).1 = .ok (.ok execution) ∧
      execution.trace.steps = 3 ∧
      ((rotateIfSet.run .negatedCarry 2).run.run.run second).1 =
        .ok (.error (.stepLimitExceeded 2)) ∧
      ∃ repeated, ((rotateIfSet.run .negatedCarry 5).run.run.run second).1 = .ok (.ok repeated) ∧
        execution.SameShape repeated) ∧
    ((branchToNext.run .negatedCarry 3).run.run.run first).1 =
      .ok (.error (.counterOutOfRange 2 2)) ∧
    ((branchToNext.run .negatedCarry 8).run.run.run second).1 =
      .ok (.error (.counterOutOfRange 2 2)) := by
  intro first second
  have rotates : rotateIfSet.Repeatable .negatedCarry first second :=
    .inr ⟨by decide +kernel, by decide +kernel⟩
  have falls : branchToNext.Repeatable .negatedCarry first second :=
    .inr ⟨by decide +kernel, by decide +kernel⟩
  have computed : (((rotateIfSet.run .negatedCarry 3).run.run.run first).1.toOption.bind
      Except.toOption).any (fun execution => execution.trace.steps == 3) = true := by
    decide +kernel
  have fallen : ((branchToNext.run .negatedCarry 3).run.run.run first).1 =
      .ok (.error (.counterOutOfRange 2 2)) := by
    rfl
  rcases exists_ok_of_any computed with ⟨execution, ended, counted⟩
  have steps : execution.trace.steps = 3 := eq_of_beq counted
  have cut := (limit_only_cuts_off rotateIfSet .negatedCarry first second rotates).2 3 execution ended
  have left := (limit_only_cuts_off branchToNext .negatedCarry first second falls).1 3 8 (by decide)
  exact ⟨rotates, falls, ⟨execution, ended, steps, (cut 2).1 (by omega), (cut 5).2 (by omega)⟩,
    fallen, left.2 2 2 fallen⟩

end SymbolicMachine
