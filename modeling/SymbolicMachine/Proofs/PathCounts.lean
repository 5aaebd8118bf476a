import SymbolicMachine.Proofs.InstructionEffects
import SymbolicMachine.Proofs.RunOutcomes

namespace SymbolicMachine

/-!
# Traces bound paths

A run executes an instruction once for all the paths that have come to it together, and the trace
counts this once.  Under an assignment one of these paths is taken at most.  Each instruction that
the processor executes is therefore executed by the thread in its place, at one moment of the run
and at no other, and is counted there.  What the trace counts beyond that are steps of threads in
whose place the processor is not.

The way of the processor is carried along with the run, up to the place where the run tracks it.
Nothing is asked of the operands of a program: an instruction with an improper one has not been
executed if the run has a result.
-/

/-! ## Traces and ways -/

/-- A trace counts at least the instructions of a list. -/
structure Trace.Bounds (trace : Trace) (visited : List Nat) : Prop where
  count : ∀ pc, visited.count pc ≤ trace.count pc
  steps : visited.length ≤ trace.steps

namespace Progress.Advances

variable {progress next : Progress} {pc : Nat} {instruction : Instruction} {visited : List Nat}

/-- A step of the processor is counted where it is taken. -/
theorem bounds_append (advances : progress.Advances pc instruction next)
    (bounds : progress.trace.Bounds visited) : next.trace.Bounds (visited ++ [pc]) := by
  constructor
  · intro other
    rw [advances.count, List.count_append, List.count_singleton]
    by_cases same : other = pc
    · simpa [same] using bounds.count pc
    · simpa [same, Ne.symm same] using bounds.count other
  · rw [advances.steps, List.length_append, List.length_singleton]
    exact Nat.succ_le_succ bounds.steps

/-- Counting more does no harm. -/
theorem bounds (advances : progress.Advances pc instruction next)
    (bounds : progress.trace.Bounds visited) : next.trace.Bounds visited := by
  constructor
  · intro other
    rw [advances.count]
    exact Nat.le_add_right_of_le (bounds.count other)
  · rw [advances.steps]
    exact Nat.le_succ_of_le bounds.steps

end Progress.Advances

/-! ## One step -/

/-- An instruction may be taken to have a proper operand. -/
theorem Progress.returns_step_of_addressed {progress : Progress} {pc : Nat} {thread : Thread}
    {instruction : Instruction} {property : Progress -> Prop}
    (given : instruction.Addressed -> Returns (progress.step pc thread instruction) property) :
    Returns (progress.step pc thread instruction) property := by
  by_cases addressed : instruction.Addressed
  · exact given addressed
  · rcases instruction.exists_of_not_addressed addressed with ⟨address, names, wrong⟩
    intro session
    exact .inl ⟨_, Progress.step_misused progress pc thread names wrong session⟩

namespace Interpretation

variable {I : Interpretation} {strategy : Strategy} {program : Program} {locate : Word -> UInt32}
  {start : Processor} {progress : Progress}

/-- The processor has come from the start of a run to where the run tracks it, on a way that the
trace bounds. -/
def Retraces (I : Interpretation) (strategy : Strategy) (program : Program)
    (locate : Word -> UInt32) (start : Processor) (progress : Progress) : Prop :=
  ∃ visited control processor, I.Tracks strategy progress (some control) processor ∧
    Reaches program locate (.running 0) start visited control processor ∧
    progress.trace.Bounds visited

theorem Represents.retraces_start {machine : Machine}
    (represents : I.Represents strategy machine start) :
    I.Retraces strategy program locate start (.start machine) :=
  ⟨[], .running 0, start, represents.tracks_start, .here _ _, fun _ => Nat.le_refl 0, Nat.le_refl 0⟩

theorem Retraces.step (retraces : I.Retraces strategy program locate start progress)
    {pc : Nat} {thread : Thread} {rest : Table Thread} {instruction : Instruction}
    (popped : progress.pending.popFirst? = some ((pc, thread), rest))
    (found : program.get? pc = some instruction) (located : I.LocatesOperand instruction locate) :
    Succeeds (Progress.step { progress with pending := rest } pc thread instruction)
      (I.Retraces strategy program locate start) := by
  rcases retraces with ⟨visited, control, processor, tracks, reaches, bounds⟩
  have advanced := Progress.step_advances { progress with pending := rest } pc thread instruction
  apply ((tracks.advance popped located).and_returns advanced).mono
  rintro next ⟨⟨rfl, moved⟩ | ⟨_, stayed⟩, advances⟩
  · exact ⟨_, _, _, moved, reaches.advance found, advances.bounds_append bounds⟩
  · exact ⟨_, _, _, stayed, reaches, advances.bounds bounds⟩

end Interpretation

/-! ## Runs -/

namespace Program

variable {program : Program} {machine : Machine} {session later : Session} {count : Nat}
  {progress : Progress} {assignment : Assignment} {start : Processor} {strategy : Strategy}

theorem Iterates.retraces (iterates : program.Iterates machine session count progress later)
    (represents : (Interpretation.ofAssignment assignment).Represents strategy machine start)
    (covers : assignment.Covers program.support) :
    (Interpretation.ofAssignment assignment).Retraces strategy program assignment.locate start
      progress := by
  apply iterates.keeps represents.retraces_start
  intro progress pc thread rest instruction retraces popped found
  apply Progress.returns_step_of_addressed
  intro addressed
  have operand : assignment.Covers instruction.support :=
    Assignment.covers_flatMap.mp covers instruction (List.mem_of_getElem? found)
  exact (retraces.step popped found (addressed.locatesOperand operand)).returns

/-- A run that has a result bounds the run of the processor under every assignment.  The processor
to which the machine evaluates runs to a halt, executes each instruction at most as often as the
trace counts it, and no more instructions than the trace counts in all. -/
theorem trace_bounds_paths (program : Program) (machine : Machine) (limit : Nat)
    (session : Session) (execution : Execution) (wellFormed : machine.WellFormed)
    (ended : ((program.run machine limit).run.run.run session).1 = .ok (.ok execution))
    (assignment : Assignment)
    (covers : assignment.Covers (machine.support ++ program.support)) :
    (∃ start, machine.Evaluates assignment start) ∧
    ∀ start, machine.Evaluates assignment start ->
      (∃ visited final, Runs program assignment.locate (.running 0) start visited final) ∧
      ∀ visited final, Runs program assignment.locate (.running 0) start visited final ->
        (∀ pc, visited.count pc ≤ execution.trace.count pc) ∧
        visited.length ≤ execution.trace.steps := by
  have parts := Assignment.covers_append.mp covers
  rcases wellFormed.exists_processor parts.1 with ⟨processor, represents⟩
  rcases run_eq_ok_iff.mp ended with
    ⟨count, progress, later, thread, iterates, _, drained, _, rfl⟩
  rcases iterates.retraces represents parts.2 with
    ⟨visited, control, final, tracks, reaches, bounds⟩
  cases tracks.halted_of_drained (Table.popFirst?_eq_none_iff.mpr drained)
  refine ⟨⟨processor, represents.evaluates⟩, ?_⟩
  intro start evaluates
  rw [evaluates.foundBy.unique represents.evaluates.foundBy]
  refine ⟨⟨visited, final, runs_iff_reaches.mpr reaches⟩, ?_⟩
  intro others ending runs
  have same := reaches.unique_of_stuck (Control.stuck_halted program) (runs_iff_reaches.mp runs)
    (Control.stuck_halted program)
  rw [same.1]
  exact ⟨bounds.count, bounds.steps⟩

/-- With an open flag the run executes all three instructions.  Where the flag is clear, the
processor passes over the second one. -/
theorem trace_bounds_paths_rotateIfSet :
    let assignment : Assignment := .ofList [(0, false), (1, true)]
    Machine.openCarry.WellFormed ∧
    assignment.Covers (Machine.openCarry.support ++ rotateIfSet.support) ∧
    ∃ execution, ((rotateIfSet.run .openCarry 3).run.run.run {}).1 = .ok (.ok execution) ∧
      execution.trace.visits = [1, 1, 1] ∧
      ∃ start, Machine.openCarry.Evaluates assignment start ∧
        Runs rotateIfSet assignment.locate (.running 0) start [0, 2] start ∧
        (∀ pc, [0, 2].count pc ≤ execution.trace.count pc) ∧ 2 ≤ execution.trace.steps := by
  intro assignment
  have wellFormed := Machine.openCarry_wellFormed
  have covers : assignment.Covers (Machine.openCarry.support ++ rotateIfSet.support) := by
    decide
  have computed : (((rotateIfSet.run .openCarry 3).run.run.run {}).1.toOption.bind
      Except.toOption).any (fun execution => execution.trace.visits == [1, 1, 1]) = true := by
    decide +kernel
  rcases exists_ok_of_any computed with ⟨execution, ended, visits⟩
  rcases trace_bounds_paths rotateIfSet .openCarry 3 {} execution wellFormed ended assignment covers
    with ⟨⟨start, evaluates⟩, bounded⟩
  have clear : start.flag .carry = false := by
    have valued : assignment.evaluate (.var 0) = some false := by decide
    exact Option.some.inj ((evaluates.flag .carry).symm.trans valued)
  have branches : start.after (.branchIfClear .carry 2) 0 = .running 2 := by
    rw [Processor.after, clear]
    rfl
  have runs : Runs rotateIfSet assignment.locate (.running 0) start [0, 2] start := by
    apply Runs.step (show rotateIfSet.get? 0 = some (.branchIfClear .carry 2) from rfl)
    rw [branches]
    exact .step rfl (.halted _)
  exact ⟨wellFormed, covers, execution, ended, eq_of_beq visits, start, evaluates, runs,
    (bounded start evaluates).2 _ _ runs⟩

end Program
end SymbolicMachine
