import SymbolicMachine.Proofs.FewThreads
import SymbolicMachine.Proofs.Scheduling
import SymbolicMachine.Proofs.WellFormedMachines

namespace SymbolicMachine

/-!
# How runs end

A run ends in one of the states through which it passes.  Either nothing is pending there, so
that a thread must have halted, or the limit has been reached, or the first thread is at a
number without an instruction, or its instruction is misused.  `Program.Concludes` lists these
cases, and a run has an outcome just if it concludes with it.

What each outcome says about the run is read off from there.  None of it depends on the
machine, except that on a well-formed machine a misuse is always that of an operand which is
no address.
-/

theorem Progress.step_misused {instruction : Instruction} {address : Word} (progress : Progress)
    (pc : Nat) (thread : Thread) (names : instruction.address? = some address)
    (wrong : address.width ≠ addressBits) (session : Session) :
    ((progress.step pc thread instruction).run.run session).1 =
      .error (.addressWidth address.width) :=
  run_bind_misused (Instruction.execute_misused names wrong thread.machine session)

namespace Program

/-- A run from a machine in a session concludes with an outcome. -/
inductive Concludes (program : Program) (machine : Machine) (session : Session) (limit : Nat) :
    Except Misuse (Except ExecutionError Execution) -> Prop
  | halted {count : Nat} {progress : Progress} {later : Session} {thread : Thread} :
      program.Iterates machine session count progress later -> count ≤ limit ->
      progress.pending.popFirst? = none -> progress.halted = some thread ->
      Concludes program machine session limit
        (.ok (.ok ⟨thread.predicate, thread.machine, progress.trace⟩))
  | abandoned {progress : Progress} {later : Session} {first : (Nat × Thread) × Table Thread} :
      program.Iterates machine session limit progress later ->
      progress.pending.popFirst? = some first ->
      Concludes program machine session limit (.ok (.error (.stepLimitExceeded limit)))
  | outside {count pc : Nat} {progress : Progress} {later : Session} {thread : Thread}
      {rest : Table Thread} :
      program.Iterates machine session count progress later -> count < limit ->
      progress.pending.popFirst? = some ((pc, thread), rest) -> program.get? pc = none ->
      Concludes program machine session limit
        (.ok (.error (.counterOutOfRange pc program.length)))
  | misused {count pc : Nat} {progress : Progress} {later : Session} {thread : Thread}
      {rest : Table Thread} {instruction : Instruction} {misuse : Misuse} :
      program.Iterates machine session count progress later -> count < limit ->
      progress.pending.popFirst? = some ((pc, thread), rest) ->
      program.get? pc = some instruction ->
      ((Progress.step { progress with pending := rest } pc thread instruction).run.run later).1 =
        .error misuse ->
      Concludes program machine session limit (.error misuse)

variable {program : Program} {machine : Machine} {session later : Session} {limit count : Nat}
  {progress : Progress}

/-! ## Outcomes and conclusions -/

/-- A run goes on to some conclusion from each of its states that it may reach. -/
theorem Iterates.exists_concludes {remaining : Nat}
    (iterates : program.Iterates machine session count progress later)
    (left : count + remaining = limit) :
    ∃ outcome, program.Concludes machine session limit outcome := by
  -- the instructions that are left grow fewer with every state that does not end the run
  induction remaining generalizing count progress later with
  | zero =>
      have reached : count = limit := left
      subst reached
      cases popped : progress.pending.popFirst? with
      | none =>
          rcases iterates.halted_of_drained popped with ⟨thread, halted⟩
          exact ⟨_, .halted iterates (Nat.le_refl _) popped halted⟩
      | some first => exact ⟨_, .abandoned iterates popped⟩
  | succ remaining ih =>
      have within : count < limit := by omega
      cases popped : progress.pending.popFirst? with
      | none =>
          rcases iterates.halted_of_drained popped with ⟨thread, halted⟩
          exact ⟨_, .halted iterates (Nat.le_of_lt within) popped halted⟩
      | some first =>
          rcases first with ⟨⟨pc, thread⟩, rest⟩
          cases found : program.get? pc with
          | none => exact ⟨_, .outside iterates within popped found⟩
          | some instruction =>
              cases taken : (Progress.step { progress with pending := rest } pc thread
                  instruction).run.run later with
              | mk outcome after =>
                  cases outcome with
                  | error misuse =>
                      exact ⟨_, .misused iterates within popped found (congrArg Prod.fst taken)⟩
                  | ok next => exact ih (.step iterates popped found taken) (by omega)

/-- A run has the outcome with which it concludes. -/
theorem Concludes.run_eq {outcome : Except Misuse (Except ExecutionError Execution)}
    (concludes : program.Concludes machine session limit outcome) :
    ((program.run machine limit).run.run.run session).1 = outcome := by
  rw [run_eq_explore]
  cases concludes with
  | @halted _ progress _ thread iterates within popped halted =>
      have concluded : progress.conclusion =
          .ok ⟨thread.predicate, thread.machine, progress.trace⟩ := by
        rw [Progress.conclusion, halted]
      rw [iterates.explore_eq within]
      unfold Program.explore
      simp only [popped]
      exact congrArg Except.ok concluded
  | abandoned iterates popped =>
      rw [iterates.explore_eq (Nat.le_refl _), Nat.sub_self]
      unfold Program.explore
      simp only [popped]
      rfl
  | @outside count _ _ _ _ _ iterates within popped found =>
      have left : limit - count = limit - (count + 1) + 1 := by omega
      rw [iterates.explore_eq (Nat.le_of_lt within), left]
      unfold Program.explore
      simp only [popped, found]
      rfl
  | @misused count _ _ _ _ _ _ _ iterates within popped found misused =>
      have left : limit - count = limit - (count + 1) + 1 := by omega
      rw [iterates.explore_eq (Nat.le_of_lt within), left]
      unfold Program.explore
      simp only [popped, found]
      rw [run_lift_bind_misused misused]
      rfl

theorem run_eq_iff {outcome : Except Misuse (Except ExecutionError Execution)} :
    ((program.run machine limit).run.run.run session).1 = outcome ↔
      program.Concludes machine session limit outcome := by
  constructor
  · rintro rfl
    have begins : program.Iterates machine session 0 (.start machine) session := .start
    rcases begins.exists_concludes (Nat.zero_add limit) with ⟨outcome, concludes⟩
    rw [concludes.run_eq]
    exact concludes
  · exact Concludes.run_eq

/-- A run passes through states with a pending thread before it comes to a state. -/
theorem Iterates.earlier {number : Nat}
    (iterates : program.Iterates machine session count progress later) (before : number < count) :
    ∃ state between first, program.Iterates machine session number state between ∧
      state.pending.popFirst? = some first := by
  induction iterates with
  | start => cases before
  | @step last pc state next between after thread rest instruction previous popped found taken ih =>
      by_cases here : number = last
      · subst here
        exact ⟨_, _, _, previous, popped⟩
      · exact ih (by omega)

/-- A run that comes to its end after some instructions has a result just if the limit allows
for them, and then always the same one. -/
theorem Iterates.run_eq_of_drained {thread : Thread}
    (iterates : program.Iterates machine session count progress later)
    (drained : progress.pending.popFirst? = none) (halted : progress.halted = some thread)
    (limit : Nat) :
    ((program.run machine limit).run.run.run session).1 =
      if count ≤ limit then .ok (.ok ⟨thread.predicate, thread.machine, progress.trace⟩)
      else .ok (.error (.stepLimitExceeded limit)) := by
  split
  · next within => exact (Concludes.halted iterates within drained halted).run_eq
  · next beyond =>
      rcases iterates.earlier (Nat.lt_of_not_le beyond) with ⟨_, _, _, reached, popped⟩
      exact (Concludes.abandoned reached popped).run_eq

/-! ## The outcomes one by one -/

theorem run_eq_ok_iff {execution : Execution} :
    ((program.run machine limit).run.run.run session).1 = .ok (.ok execution) ↔
      ∃ count progress later thread, program.Iterates machine session count progress later ∧
        count ≤ limit ∧ progress.pending.isEmpty = true ∧ progress.halted = some thread ∧
        execution = ⟨thread.predicate, thread.machine, progress.trace⟩ := by
  rw [run_eq_iff]
  constructor
  · intro concludes
    cases concludes with
    | halted iterates within popped halted =>
        exact ⟨_, _, _, _, iterates, within, Table.popFirst?_eq_none_iff.mp popped, halted, rfl⟩
  · rintro ⟨count, progress, later, thread, iterates, within, drained, halted, rfl⟩
    exact .halted iterates within (Table.popFirst?_eq_none_iff.mpr drained) halted

/-- A run is abandoned if a thread is pending when it has executed all the instructions that
the limit allows, and not before. -/
theorem run_eq_stepLimitExceeded_iff {bound : Nat} :
    ((program.run machine limit).run.run.run session).1 = .ok (.error (.stepLimitExceeded bound)) ↔
      bound = limit ∧ ∃ progress later, program.Iterates machine session limit progress later ∧
        progress.trace.steps = limit ∧ progress.pending.isEmpty = false := by
  rw [run_eq_iff]
  constructor
  · intro concludes
    cases concludes with
    | @abandoned progress _ _ iterates popped =>
        have pending : progress.pending.isEmpty = false := by
          rw [← Bool.not_eq_true, ← Table.popFirst?_eq_none_iff, popped]
          exact Option.some_ne_none _
        exact ⟨rfl, _, _, iterates, iterates.steps_eq, pending⟩
  · rintro ⟨rfl, progress, later, iterates, _, pending⟩
    cases popped : progress.pending.popFirst? with
    | none =>
        rw [Table.popFirst?_eq_none_iff.mp popped] at pending
        cases pending
    | some first => exact .abandoned iterates popped

/-- A run leaves the program only right behind it, and only by falling through. -/
theorem run_eq_counterOutOfRange_iff {pc length : Nat} :
    ((program.run machine limit).run.run.run session).1 =
        .ok (.error (.counterOutOfRange pc length)) ↔
      pc = program.length ∧ length = program.length ∧
      ∃ count progress later thread rest,
        program.Iterates machine session count progress later ∧ count < limit ∧
        progress.pending.popFirst? = some ((program.length, thread), rest) ∧
        program.FallsThrough progress.trace := by
  rw [run_eq_iff]
  constructor
  · intro concludes
    cases concludes with
    | outside iterates within popped found =>
        rcases iterates.fallen_of_outside popped found with ⟨rfl, falls⟩
        exact ⟨rfl, rfl, _, _, _, _, _, iterates, within, popped, falls⟩
  · rintro ⟨rfl, rfl, count, progress, later, thread, rest, iterates, within, popped, _⟩
    exact .outside iterates within popped (List.getElem?_eq_none (Nat.le_refl _))

/-- A misused step has an operand that is no address. -/
theorem Iterates.misused_of_step {pc : Nat} {thread : Thread} {rest : Table Thread}
    {instruction : Instruction} {misuse : Misuse}
    (iterates : program.Iterates machine session count progress later)
    (wellFormed : machine.WellFormed)
    (popped : progress.pending.popFirst? = some ((pc, thread), rest))
    (misused : ((Progress.step { progress with pending := rest } pc thread
      instruction).run.run later).1 = .error misuse) :
    ∃ address, instruction.address? = some address ∧ address.width ≠ addressBits ∧
      misuse = .addressWidth address.width := by
  -- with every variable false some thread is live in every state, and then only an operand can
  -- keep a step from having a result
  have partitions : Interpretation.ground.Partitions machine.memory.strategy progress := by
    rcases Machine.shaped_iff.mp ⟨wellFormed, rfl⟩ with ⟨start, represents⟩
    apply iterates.keeps
    · exact ⟨.running 0, start, represents.tracks_start⟩
    · intro progress pc thread rest instruction kept popped found
      exact kept.step popped fun address _ bit _ => ⟨_, Interpretation.reads_ground bit⟩
  have unaddressed : ¬ instruction.Addressed := by
    intro addressed
    rcases partitions.advance popped addressed.locates later with ⟨next, taken, _⟩
    cases misused.symm.trans taken
  rcases instruction.exists_of_not_addressed unaddressed with ⟨address, names, wrong⟩
  have refused := Progress.step_misused { progress with pending := rest } pc thread names wrong later
  exact ⟨address, names, wrong, Except.error.inj (misused.symm.trans refused)⟩

/-- On a well-formed machine a run is misused only by an instruction of the program whose
operand is no address. -/
theorem operand_of_run_misused {misuse : Misuse} (wellFormed : machine.WellFormed)
    (misused : ((program.run machine limit).run.run.run session).1 = .error misuse) :
    ∃ instruction ∈ program.instructions, ∃ address, instruction.address? = some address ∧
      address.width ≠ addressBits ∧ misuse = .addressWidth address.width := by
  rw [run_eq_iff] at misused
  cases misused with
  | misused iterates _ popped found stepMisused =>
      exact ⟨_, List.mem_of_getElem? found, iterates.misused_of_step wellFormed popped stepMisused⟩

/-! ## Well-formed machines -/

/-- A run on a well-formed machine ends as it should.  It is misused only by an operand that is
no address, and never ends without a halted thread.  Its program counter is out of range only
at the end of the program, after the last instruction was executed and led there without a
branch that is taken, unless there is no instruction at all.  It is abandoned only after
exactly as many instructions as the limit says, with a thread still pending.  In all other
cases it has a result. -/
theorem run_outcome_of_wellFormed (program : Program) (machine : Machine)
    (wellFormed : machine.WellFormed) (limit : Nat) (session : Session) :
    let outcome := ((program.run machine limit).run.run.run session).1
    (∀ misuse, outcome = .error misuse ->
      ∃ instruction ∈ program.instructions, ∃ address, instruction.address? = some address ∧
        address.width ≠ addressBits ∧ misuse = .addressWidth address.width) ∧
    outcome ≠ .ok (.error .noHalt) ∧
    (∀ pc length, outcome = .ok (.error (.counterOutOfRange pc length)) ↔
      pc = program.length ∧ length = program.length ∧
      ∃ count progress later thread rest,
        program.Iterates machine session count progress later ∧ count < limit ∧
        progress.pending.popFirst? = some ((program.length, thread), rest) ∧
        program.FallsThrough progress.trace) ∧
    (∀ bound, outcome = .ok (.error (.stepLimitExceeded bound)) ↔
      bound = limit ∧ ∃ progress later, program.Iterates machine session limit progress later ∧
        progress.trace.steps = limit ∧ progress.pending.isEmpty = false) ∧
    ∀ execution, outcome = .ok (.ok execution) ↔
      ∃ count progress later thread, program.Iterates machine session count progress later ∧
        count ≤ limit ∧ progress.pending.isEmpty = true ∧ progress.halted = some thread ∧
        execution = ⟨thread.predicate, thread.machine, progress.trace⟩ := by
  intro outcome
  refine ⟨fun misuse misused => operand_of_run_misused wellFormed misused, ?_,
    fun pc length => run_eq_counterOutOfRange_iff, fun bound => run_eq_stepLimitExceeded_iff,
    fun execution => run_eq_ok_iff⟩
  intro lost
  rw [run_eq_iff] at lost
  cases lost

/-- A program without a halt, whose branch meets its other path at once. -/
def branchToNext : Program where
  instructions := [.branchIfClear .carry 1, .rotateRegister .a]
  labels := .empty
  branches_inside := by simp [Instruction.target?]

/-- With an open flag, a run of one instruction leaves two threads pending, and a run through
a program without a halt ends right behind it. -/
theorem run_outcome_of_wellFormed_openCarry :
    Machine.openCarry.WellFormed ∧
    ((rotateIfSet.run .openCarry 1).run.run.run {}).1 =
      .ok (.error (.stepLimitExceeded 1)) ∧
    ((branchToNext.run .openCarry 9).run.run.run {}).1 =
      .ok (.error (.counterOutOfRange 2 2)) := by
  have wellFormed := Machine.openCarry_wellFormed
  have forked : ∃ progress later, rotateIfSet.Iterates .openCarry {} 1 progress later ∧
      progress.trace.steps = 1 ∧ progress.pending.isEmpty = false :=
    ⟨_, _, .step .start rfl rfl rfl, rfl, rfl⟩
  have fallen : ∃ count progress later thread rest,
      branchToNext.Iterates .openCarry {} count progress later ∧ count < 9 ∧
      progress.pending.popFirst? = some ((branchToNext.length, thread), rest) ∧
      branchToNext.FallsThrough progress.trace :=
    ⟨2, _, _, _, _, .step (.step .start rfl rfl rfl) rfl rfl rfl, by decide, rfl,
      .inr ⟨1, _, rfl, rfl, by decide, by decide, by decide⟩⟩
  rcases run_outcome_of_wellFormed rotateIfSet .openCarry wellFormed 1 {} with
    ⟨_, _, _, abandoned, _⟩
  rcases run_outcome_of_wellFormed branchToNext .openCarry wellFormed 9 {} with
    ⟨_, _, outside, _⟩
  exact ⟨wellFormed, (abandoned 1).mpr ⟨rfl, forked⟩, (outside 2 2).mpr ⟨rfl, rfl, fallen⟩⟩

end Program
end SymbolicMachine
