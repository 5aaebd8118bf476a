import Mathlib.Algebra.BigOperators.Group.Finset.Piecewise
import SymbolicMachine.Proofs.Frames
import SymbolicMachine.Proofs.PathPredicates
import SymbolicMachine.Proofs.ProcessorRuns

namespace SymbolicMachine

/-!
# Where threads go

What a step does to the places of a run does not depend on what its threads hold.  The thread
that was taken away comes to one of the places to which its instruction leads, or, after a
branch that cannot be decided, to both of them.  A thread that comes to an occupied place is
joined there, which the trace counts.  All other threads stay where they are.

`Progress.Advances` says this of one step, once for all instructions, and `step_advances` that
every step that is not misused is of this kind.  What holds of the places of all states of a
run follows from it: a run never loses its last thread, and its threads stay inside the
program or right behind it.
-/

/-! ## Control flow -/

/-- Control goes on in the way of an instruction. -/
def Flow.Suits (instruction : Instruction) : Flow -> Prop
  | next => instruction.isPlain = true
  | branch _ destination => instruction.target? = some destination
  | halt => instruction = .halt

theorem Instruction.execute_suits (instruction : Instruction) (machine : Machine) :
    Returns (instruction.execute machine) fun result => result.2.Suits instruction := by
  cases instruction with
  | branchIfClear flag target =>
      apply (execute_branch flag target machine).returns.mono
      rintro _ ⟨condition, rfl, _⟩
      exact rfl
  | halt => exact .pure rfl
  | _ =>
      apply (execute_frame _ machine).mono
      rintro result ⟨_, plain⟩
      rw [plain rfl]
      exact rfl

theorem Instruction.leadsTo_of_isPlain {instruction : Instruction}
    (plain : instruction.isPlain = true) (pc : Nat) :
    instruction.leadsTo pc = [.running (pc + 1)] := by
  cases instruction with
  | branchIfClear _ _ => cases plain
  | halt => cases plain
  | _ => rfl

theorem Instruction.leadsTo_of_target? {instruction : Instruction} {target : Nat}
    (branches : instruction.target? = some target) (pc : Nat) :
    instruction.leadsTo pc = [.running target, .running (pc + 1)] := by
  cases instruction with
  | branchIfClear _ _ =>
      cases branches
      rfl
  | _ => cases branches

/-! ## One step -/

namespace Progress

variable {progress next : Progress} {control : Control} {pc : Nat} {thread : Thread}
  {instruction : Instruction}

/-- There is a thread in a place. -/
def Occupied (progress : Progress) (control : Control) : Prop :=
  (progress.thread? control).isSome = true

/-- A thread has come to a place, where it is joined with the thread that is there, if any. -/
structure Arrives (progress : Progress) (control : Control) (next : Progress) : Prop where
  occupied : ∀ other, next.Occupied other ↔ other = control ∨ progress.Occupied other
  trace : next.trace =
    if (progress.thread? control).isSome then progress.trace.merge else progress.trace

theorem arrives_of_put {put : Thread}
    (changed : ∀ other, next.thread? other =
      if other = control then some put else progress.thread? other)
    (trace : next.trace =
      if (progress.thread? control).isSome then progress.trace.merge else progress.trace) :
    progress.Arrives control next := by
  refine ⟨?_, trace⟩
  intro other
  rw [Occupied, changed]
  by_cases here : other = control
  · simp [here]
  · simp [here, Occupied]

theorem schedule_arrives (progress : Progress) (pc : Nat) (thread : Thread) :
    Returns (progress.schedule pc thread) (progress.Arrives (.running pc)) := by
  unfold schedule scheduleBy
  cases found : progress.pending.get? pc with
  | none =>
      apply Returns.pure
      apply arrives_of_put (progress.thread?_insert pc thread _)
      simp [thread?, found]
  | some existing =>
      apply (Returns.any _).bind
      intro _ _
      apply (Returns.any _).bind
      intro joined _
      apply Returns.pure
      apply arrives_of_put (progress.thread?_insert pc joined _)
      simp [thread?, found]

theorem retire_arrives (progress : Progress) (pc : Nat) (thread : Thread) :
    Returns (progress.retire pc thread) (progress.Arrives .halted) := by
  apply (Returns.any _).bind
  intro _ _
  cases found : progress.halted with
  | none =>
      apply Returns.pure
      apply arrives_of_put (progress.thread?_retire thread _)
      simp [thread?, found]
  | some previous =>
      apply (Returns.any _).bind
      intro joined _
      apply Returns.pure
      apply arrives_of_put (progress.thread?_retire joined _)
      simp [thread?, found]

/-- What an instruction does to the places and to the trace of a run from which its thread
was taken away. -/
inductive Advances (progress : Progress) (pc : Nat) (instruction : Instruction)
    (next : Progress) : Prop
  | goes {control : Control} : control ∈ instruction.leadsTo pc ->
      Arrives { progress with trace := progress.trace.visit pc } control next ->
      Advances progress pc instruction next
  | forks {target : Nat} {between : Progress} : instruction.target? = some target ->
      Arrives { progress with trace := (progress.trace.visit pc).fork } (.running target)
        between ->
      Arrives between (.running (pc + 1)) next ->
      Advances progress pc instruction next

theorem follow_advances (progress : Progress) (pc : Nat) (thread : Thread) (condition : Bit)
    {target : Nat} (branches : instruction.target? = some target) :
    Returns (follow { progress with trace := progress.trace.visit pc } pc thread condition target)
      (progress.Advances pc instruction) := by
  have leads := instruction.leadsTo_of_target? branches pc
  unfold follow followBy
  cases condition.known with
  | some value =>
      cases value with
      | true =>
          apply (schedule_arrives _ target thread).mono
          intro next arrives
          exact .goes (by simp [leads]) arrives
      | false =>
          apply (schedule_arrives _ (pc + 1) thread).mono
          intro next arrives
          exact .goes (by simp [leads]) arrives
  | none =>
      apply (Returns.any _).bind
      intro _ _
      apply (Returns.any _).bind
      intro taken _
      apply (Returns.any _).bind
      intro negated _
      apply (Returns.any _).bind
      intro notTaken _
      apply (schedule_arrives _ target _).bind
      intro between arrivesFirst
      apply (schedule_arrives between (pc + 1) _).mono
      intro next arrives
      exact .forks branches arrivesFirst arrives

theorem step_advances (progress : Progress) (pc : Nat) (thread : Thread)
    (instruction : Instruction) :
    Returns (progress.step pc thread instruction) (progress.Advances pc instruction) := by
  apply (instruction.execute_suits thread.machine).bind
  rintro ⟨machine, flow⟩ suits
  cases flow with
  | next =>
      apply (schedule_arrives _ (pc + 1) _).mono
      intro next arrives
      exact .goes (by simp [instruction.leadsTo_of_isPlain suits]) arrives
  | branch condition destination => exact follow_advances progress pc _ condition suits
  | halt =>
      cases suits
      apply (retire_arrives _ pc _).mono
      intro next arrives
      exact .goes (by simp [Instruction.leadsTo]) arrives

/-! ## What follows of a step -/

theorem Arrives.steps (arrives : progress.Arrives control next) :
    next.trace.steps = progress.trace.steps := by
  rw [arrives.trace]
  split <;> simp

theorem Arrives.count (arrives : progress.Arrives control next) (pc : Nat) :
    next.trace.count pc = progress.trace.count pc := by
  rw [arrives.trace]
  split <;> simp

namespace Advances

theorem steps (advances : progress.Advances pc instruction next) :
    next.trace.steps = progress.trace.steps + 1 := by
  cases advances with
  | goes _ arrives => simp [arrives.steps]
  | forks _ arrivesFirst arrives => simp [arrives.steps, arrivesFirst.steps]

theorem count (advances : progress.Advances pc instruction next) (other : Nat) :
    next.trace.count other = progress.trace.count other + if other = pc then 1 else 0 := by
  cases advances with
  | goes _ arrives => simp [arrives.count]
  | forks _ arrivesFirst arrives => simp [arrives.count, arrivesFirst.count]

/-- A thread is where one was before or where the instruction leads. -/
theorem origin (advances : progress.Advances pc instruction next)
    (occupied : next.Occupied control) :
    progress.Occupied control ∨ control ∈ instruction.leadsTo pc := by
  cases advances with
  | goes leads arrives =>
      rcases (arrives.occupied control).mp occupied with rfl | before
      · exact .inr leads
      · exact .inl before
  | forks branches arrivesFirst arrives =>
      rw [instruction.leadsTo_of_target? branches]
      rcases (arrives.occupied control).mp occupied with rfl | between
      · exact .inr (by simp)
      · rcases (arrivesFirst.occupied control).mp between with rfl | before
        · exact .inr (by simp)
        · exact .inl before

/-- The thread of the instruction is not lost. -/
theorem arrived (advances : progress.Advances pc instruction next) :
    ∃ control, next.Occupied control := by
  cases advances with
  | goes _ arrives => exact ⟨_, (arrives.occupied _).mpr (.inl rfl)⟩
  | forks _ _ arrives => exact ⟨_, (arrives.occupied _).mpr (.inl rfl)⟩

end Advances

theorem occupied_start {machine : Machine} :
    (start machine).Occupied control ↔ control = .running 0 := by
  cases control with
  | running pc => by_cases first : pc = 0 <;> simp [Occupied, thread?, start, first]
  | halted => simp [Occupied, thread?, start]

/-- The threads that stay when the first one is taken away were there before. -/
theorem occupied_of_waiting {rest : Table Thread}
    (popped : progress.pending.popFirst? = some ((pc, thread), rest))
    (occupied : Occupied { progress with pending := rest } control) :
    progress.Occupied control := by
  rw [Occupied, thread?_waiting popped] at occupied
  split at occupied
  · cases occupied
  · exact occupied

theorem occupied_of_pop {rest : Table Thread}
    (popped : progress.pending.popFirst? = some ((pc, thread), rest)) :
    progress.Occupied (.running pc) := by
  rw [Occupied, thread?, (Table.get?_of_popFirst? popped).1]
  rfl

end Progress

/-! ## All states of a run -/

namespace Program

/-- The trace shows how a thread can have come to the end of a program: there is no instruction
to execute, or the last one was executed, is no halt, and led there without being a branch to
there. -/
def FallsThrough (program : Program) (trace : Trace) : Prop :=
  program.length = 0 ∨ ∃ last instruction, last + 1 = program.length ∧
    program.get? last = some instruction ∧ instruction ≠ .halt ∧
    instruction.target? ≠ some program.length ∧ 0 < trace.count last

/-- A run has a thread, its threads are inside the program or right behind it, and one that is
behind it has fallen through. -/
structure Contains (program : Program) (progress : Progress) : Prop where
  inhabited : ∃ control, progress.Occupied control
  inside : ∀ pc, progress.Occupied (.running pc) -> pc ≤ program.length
  fallen : progress.Occupied (.running program.length) -> program.FallsThrough progress.trace

variable {program : Program} {machine : Machine} {session later : Session} {count pc : Nat}
  {progress next : Progress} {thread : Thread} {rest : Table Thread} {instruction : Instruction}

theorem FallsThrough.mono {trace longer : Trace} (falls : program.FallsThrough trace)
    (counted : ∀ pc, trace.count pc ≤ longer.count pc) : program.FallsThrough longer := by
  rcases falls with empty | ⟨last, instruction, ends, found, goesOn, notTaken, visited⟩
  · exact .inl empty
  · exact .inr ⟨last, instruction, ends, found, goesOn, notTaken,
      Nat.lt_of_lt_of_le visited (counted last)⟩

theorem contains_start (program : Program) (machine : Machine) :
    program.Contains (.start machine) where
  inhabited := ⟨.running 0, Progress.occupied_start.mpr rfl⟩
  inside pc occupied := by
    cases Progress.occupied_start.mp occupied
    exact Nat.zero_le _
  fallen occupied := by
    have first := Progress.occupied_start.mp occupied
    exact .inl (Control.running.inj first)

theorem Contains.advance (contains : program.Contains progress)
    (popped : progress.pending.popFirst? = some ((pc, thread), rest))
    (found : program.get? pc = some instruction)
    (advances : Progress.Advances { progress with pending := rest } pc instruction next) :
    program.Contains next := by
  have counts := advances.count
  refine ⟨advances.arrived, ?_, ?_⟩
  · intro number occupied
    rcases advances.origin occupied with before | leads
    · exact contains.inside number (Progress.occupied_of_waiting popped before)
    · exact leadsTo_le found leads
  · intro occupied
    rcases advances.origin occupied with before | leads
    · apply (contains.fallen (Progress.occupied_of_waiting popped before)).mono
      intro number
      rw [counts]
      exact Nat.le_add_right _ _
    · rcases leadsTo_end found leads with ⟨ends, goesOn, notTaken⟩
      refine .inr ⟨pc, instruction, ends, found, goesOn, notTaken, ?_⟩
      rw [counts, if_pos rfl]
      exact Nat.succ_pos _

theorem Iterates.contains (iterates : program.Iterates machine session count progress later) :
    program.Contains progress := by
  apply iterates.keeps (program.contains_start machine)
  intro progress pc thread rest instruction contains popped found
  apply (Progress.step_advances _ pc thread instruction).mono
  intro next advances
  exact contains.advance popped found advances

/-- The trace counts the instructions. -/
theorem Iterates.steps_eq (iterates : program.Iterates machine session count progress later) :
    progress.trace.steps = count := by
  induction iterates with
  | start => rfl
  | @step count pc progress next before after thread rest instruction _ popped found taken ih =>
      have advances := (Progress.step_advances _ pc thread instruction).of_ok taken
      rw [advances.steps, ih]

/-- The instructions are those of the program. -/
theorem Iterates.steps_eq_sum (iterates : program.Iterates machine session count progress later) :
    progress.trace.steps = ∑ pc ∈ Finset.range program.length, progress.trace.count pc := by
  induction iterates with
  | start => exact (Finset.sum_eq_zero fun pc _ => rfl).symm
  | @step count pc progress next before after thread rest instruction _ popped found taken ih =>
      have advances := (Progress.step_advances _ pc thread instruction).of_ok taken
      have inside : pc ∈ Finset.range program.length :=
        Finset.mem_range.mpr (List.getElem?_eq_some_iff.mp found).1
      have counted : ∀ other, next.trace.count other =
          progress.trace.count other + if other = pc then 1 else 0 := advances.count
      simp only [counted, Finset.sum_add_distrib, Finset.sum_ite_eq', if_pos inside]
      rw [advances.steps, ← ih]

/-- If nothing is pending, a thread has halted. -/
theorem Iterates.halted_of_drained
    (iterates : program.Iterates machine session count progress later)
    (drained : progress.pending.popFirst? = none) : ∃ thread, progress.halted = some thread := by
  rcases iterates.contains.inhabited with ⟨control, occupied⟩
  cases control with
  | halted => exact Option.isSome_iff_exists.mp occupied
  | running pc =>
      rw [Progress.Occupied, Progress.thread?, Table.get?_eq_none_of_popFirst? drained] at occupied
      cases occupied

/-- A thread at a number without an instruction has fallen through the end of the program. -/
theorem Iterates.fallen_of_outside {pc : Nat} {thread : Thread} {rest : Table Thread}
    (iterates : program.Iterates machine session count progress later)
    (popped : progress.pending.popFirst? = some ((pc, thread), rest))
    (outside : program.get? pc = none) :
    pc = program.length ∧ program.FallsThrough progress.trace := by
  have occupied := Progress.occupied_of_pop popped
  have beyond : program.length ≤ pc := List.getElem?_eq_none_iff.mp outside
  have ending : pc = program.length :=
    Nat.le_antisymm (iterates.contains.inside pc occupied) beyond
  subst ending
  exact ⟨rfl, iterates.contains.fallen occupied⟩

end Program
end SymbolicMachine
