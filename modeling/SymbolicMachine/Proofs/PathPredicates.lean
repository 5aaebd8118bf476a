import SymbolicMachine.Proofs.ExecutionSoundness

namespace SymbolicMachine

/-!
# Path predicates

The loop of a run passes through one state of the exploration after the other.  In each of
them exactly one thread has a predicate that holds under a given assignment, so the
predicates of the pending threads and of the halted one divide the assignments among them.
This is so for every program, and also if the run is going to fail.

A join takes the machine of its first thread wherever the predicate of that thread holds.
Nothing depends on this choice, because the predicates of two threads that are joined never
hold together: whatever a join did with two threads whose predicates both hold, every step
would be the same.
-/

/-! ## The states of a run -/

/-- A run from a machine passes through a state after some instructions.  The sessions are
those in which the run starts and in which it goes on. -/
inductive Program.Iterates (program : Program) (machine : Machine) (session : Session) :
    Nat -> Progress -> Session -> Prop
  | start : Iterates program machine session 0 (.start machine) session
  | step {count pc : Nat} {progress next : Progress} {before after : Session} {thread : Thread}
      {rest : Table Thread} {instruction : Instruction} :
      Iterates program machine session count progress before ->
      progress.pending.popFirst? = some ((pc, thread), rest) ->
      program.get? pc = some instruction ->
      (Progress.step { progress with pending := rest } pc thread instruction).run.run before =
        (.ok next, after) ->
      Iterates program machine session (count + 1) next after

namespace Program.Iterates

variable {program : Program} {machine : Machine} {session later : Session} {count : Nat}
  {progress : Progress}

/-- What every step keeps holds of all states of a run. -/
theorem keeps {invariant : Progress -> Prop} (initially : invariant (.start machine))
    (stepped : ∀ {progress pc thread rest instruction}, invariant progress ->
      progress.pending.popFirst? = some ((pc, thread), rest) ->
      program.get? pc = some instruction ->
      Returns (Progress.step { progress with pending := rest } pc thread instruction) invariant)
    (iterates : program.Iterates machine session count progress later) :
    invariant progress := by
  induction iterates with
  | start => exact initially
  | @step count pc progress next before after thread rest instruction _ popped found taken ih =>
      exact (stepped ih popped found).of_ok taken

/-- A run goes on from each of its states as it does from the start. -/
theorem explore_eq (iterates : program.Iterates machine session count progress later)
    {limit : Nat} (within : count ≤ limit) :
    (program.explore limit limit (.start machine)).run.run.run session =
      (program.explore limit (limit - count) progress).run.run.run later := by
  induction iterates with
  | start => rfl
  | @step count pc progress next before after thread rest instruction _ popped found taken ih =>
      have left : limit - count = limit - (count + 1) + 1 := by omega
      rw [ih (by omega), left]
      conv_lhs => unfold Program.explore
      simp only [popped, found]
      exact run_lift_bind taken

end Program.Iterates

/-! ## Joins that tell threads apart -/

/-- Join two threads, but do something else if both predicates hold. -/
def Thread.joinOr (assignment : Assignment) (otherwise : Checked Thread) (first second : Thread) :
    Checked Thread :=
  if assignment.evaluate first.predicate = some true ∧
      assignment.evaluate second.predicate = some true then otherwise
  else first.join second

namespace Interpretation

variable {assignment : Assignment} {strategy : Strategy} {progress : Progress} {thread : Thread}
  {place : Option Control} {processor : Processor} {live : Bool} {otherwise : Checked Thread}

namespace Tracks

/-- The thread in a place and a thread that comes to it are not both live. -/
theorem joinOr_eq (tracks : (ofAssignment assignment).Tracks strategy progress place processor)
    (apart : live = true -> place = none)
    (stands : (ofAssignment assignment).Stands strategy thread live processor)
    {control : Control} {existing : Thread} (found : progress.thread? control = some existing) :
    Thread.joinOr assignment otherwise existing thread = existing.join thread := by
  have existingReads := (tracks.stands control existing found).predicate
  have reads := stands.predicate
  apply if_neg
  rintro ⟨existingHolds, holds⟩
  rw [Assignment.evaluate_eq] at existingHolds holds
  have here : place = some control :=
    of_decide_eq_true (Option.some.inj (existingReads.symm.trans existingHolds))
  have alive : live = true := Option.some.inj (reads.symm.trans holds)
  rw [apart alive] at here
  cases here

theorem scheduleBy_eq
    (tracks : (ofAssignment assignment).Tracks strategy progress place processor)
    (apart : live = true -> place = none)
    (stands : (ofAssignment assignment).Stands strategy thread live processor) (pc : Nat) :
    progress.scheduleBy (Thread.joinOr assignment otherwise) pc thread =
      progress.schedule pc thread := by
  unfold Progress.schedule Progress.scheduleBy
  cases found : progress.pending.get? pc with
  | none => rfl
  | some existing =>
      have atPlace : progress.thread? (.running pc) = some existing := found
      simp only [tracks.joinOr_eq apart stands atPlace]

theorem retireBy_eq
    (tracks : (ofAssignment assignment).Tracks strategy progress place processor)
    (apart : live = true -> place = none)
    (stands : (ofAssignment assignment).Stands strategy thread live processor) (pc : Nat) :
    progress.retireBy (Thread.joinOr assignment otherwise) pc thread =
      progress.retire pc thread := by
  unfold Progress.retire Progress.retireBy
  cases found : progress.halted with
  | none => rfl
  | some previous =>
      have atPlace : progress.thread? .halted = some previous := found
      simp only [tracks.joinOr_eq apart stands atPlace]

theorem followBy_eq
    (tracks : (ofAssignment assignment).Tracks strategy progress place processor)
    (apart : live = true -> place = none)
    (stands : (ofAssignment assignment).Stands strategy thread live processor)
    {condition : Bit} {taken : Bool}
    (conditionReads : (ofAssignment assignment).Reads condition taken)
    (pc destination : Nat) :
    progress.followBy (Thread.joinOr assignment otherwise) pc thread condition destination =
      progress.follow pc thread condition destination := by
  unfold Progress.follow Progress.followBy
  cases condition.known with
  | some value =>
      cases value with
      | true => exact tracks.scheduleBy_eq apart stands destination
      | false => exact tracks.scheduleBy_eq apart stands (pc + 1)
  | none =>
      apply bind_congr
      intro _
      apply (Succeeds.lift (stands.predicate.and conditionReads)).returns.bind_congr
      intro here hereReads
      apply (Succeeds.lift conditionReads.not).returns.bind_congr
      intro negated negatedReads
      apply (Succeeds.lift (stands.predicate.and negatedReads)).returns.bind_congr
      intro there thereReads
      have counted : (ofAssignment assignment).Tracks strategy
          { progress with trace := progress.trace.fork } place processor :=
        ⟨tracks.stands, tracks.present⟩
      have apartHere : (live && taken) = true -> place = none :=
        fun both => apart (Bool.and_eq_true_iff.mp both).1
      dsimp only
      rw [counted.scheduleBy_eq apartHere (stands.fork hereReads)]
      have scheduled := counted.schedule apartHere (stands.fork hereReads) destination
      apply scheduled.returns.bind_congr
      intro next nextTracks
      have apartThere := apart_of_fork apart taken (.running destination)
      exact nextTracks.scheduleBy_eq apartThere (stands.fork thereReads) (pc + 1)

variable {locate : Word -> UInt32}

/-- No step joins threads whose predicates both hold. -/
theorem stepBy_eq
    (tracks : (ofAssignment assignment).Tracks strategy progress place processor)
    (apart : live = true -> place = none)
    (stands : (ofAssignment assignment).Stands strategy thread live processor)
    (pc : Nat) (instruction : Instruction)
    (located : (ofAssignment assignment).LocatesOperand instruction locate) :
    progress.stepBy (Thread.joinOr assignment otherwise) pc thread instruction =
      progress.step pc thread instruction := by
  apply (tracks.execute apart stands pc instruction located).returns.bind_congr
  rintro ⟨machine, flow⟩ ⟨control, leads, _, moved, advanced⟩
  cases flow with
  | next => exact moved.scheduleBy_eq apart advanced (pc + 1)
  | branch condition destination =>
      rcases leads with ⟨taken, conditionReads, _⟩
      exact moved.followBy_eq apart advanced conditionReads pc destination
  | halt => exact moved.retireBy_eq apart advanced pc

end Tracks

/-! ## Programs with any operands -/

variable {I : Interpretation}

/-- An instruction whose operand has the width of an address can be located.  Any other
operand is a misuse, so that the instruction has no result. -/
theorem locatesOperand_or_misused {instruction : Instruction}
    (reads : ∀ address, instruction.address? = some address -> I.ReadsAll address.bits) :
    (∃ locate, I.LocatesOperand instruction locate) ∨
    ∀ machine, Returns (instruction.execute machine) fun _ => False := by
  cases operand : instruction.address? with
  | none =>
      left
      refine ⟨fun _ => 0, ?_⟩
      intro address names
      cases operand.symm.trans names
  | some address =>
      by_cases hasWidth : address.width = addressBits
      · left
        rcases (reads address operand).denotes hasWidth with ⟨number, denotes⟩
        refine ⟨fun _ => .ofNat number, ?_⟩
        intro other names
        cases operand.symm.trans names
        exact denotes.toUInt32
      · right
        intro machine
        have misread : Returns (machine.read address) fun _ => False := by
          apply Returns.require_bind
          intro met
          exact absurd (eq_of_beq met) hasWidth
        cases instruction with
        | rotateMemory _ | addWithCarry _ =>
            cases operand
            apply misread.bind
            intro value impossible
            exact impossible.elim
        | _ => cases operand

/-- One thread of a run on its way is live. -/
def Partitions (I : Interpretation) (strategy : Strategy) (progress : Progress) : Prop :=
  ∃ control processor, I.Tracks strategy progress (some control) processor

namespace Partitions

variable {pc : Nat} {rest : Table Thread} {instruction : Instruction}

theorem advance (partitions : I.Partitions strategy progress)
    (popped : progress.pending.popFirst? = some ((pc, thread), rest)) {locate : Word -> UInt32}
    (located : I.LocatesOperand instruction locate) :
    Succeeds (Progress.step { progress with pending := rest } pc thread instruction)
      (I.Partitions strategy) := by
  rcases partitions with ⟨control, processor, tracks⟩
  apply (tracks.advance popped located).mono
  rintro next (⟨_, moved⟩ | ⟨_, stayed⟩)
  · exact ⟨_, _, moved⟩
  · exact ⟨_, _, stayed⟩

theorem step (partitions : I.Partitions strategy progress)
    (popped : progress.pending.popFirst? = some ((pc, thread), rest))
    (reads : ∀ address, instruction.address? = some address -> I.ReadsAll address.bits) :
    Returns (Progress.step { progress with pending := rest } pc thread instruction)
      (I.Partitions strategy) := by
  rcases locatesOperand_or_misused reads with ⟨locate, located⟩ | misused
  · exact (partitions.advance popped located).returns
  · apply (misused thread.machine).bind
    intro result impossible
    exact impossible.elim

/-- Of all threads exactly one has a predicate that evaluates to true. -/
theorem existsUnique (partitions : (ofAssignment assignment).Partitions strategy progress) :
    ∃! control, ∃ thread, progress.thread? control = some thread ∧
      assignment.evaluate thread.predicate = some true := by
  rcases partitions with ⟨control, processor, tracks⟩
  rcases Option.isSome_iff_exists.mp (tracks.present control rfl) with ⟨thread, found⟩
  have stands := tracks.stands control thread found
  have live : decide (some control = some control) = true := decide_eq_true rfl
  rw [live] at stands
  refine ⟨control, ⟨thread, found, ?_⟩, ?_⟩
  · exact stands.predicate.evaluate
  · rintro other ⟨otherThread, otherFound, holds⟩
    rw [Assignment.evaluate_eq] at holds
    have reads := (tracks.stands other otherThread otherFound).predicate
    have same := of_decide_eq_true (Option.some.inj (reads.symm.trans holds))
    exact (Option.some.inj same).symm

theorem stepBy_eq (partitions : (ofAssignment assignment).Partitions strategy progress)
    (popped : progress.pending.popFirst? = some ((pc, thread), rest))
    (reads : ∀ address, instruction.address? = some address ->
      (ofAssignment assignment).ReadsAll address.bits) (otherwise : Checked Thread) :
    Progress.stepBy (Thread.joinOr assignment otherwise) { progress with pending := rest } pc
      thread instruction =
    Progress.step { progress with pending := rest } pc thread instruction := by
  rcases partitions with ⟨control, processor, tracks⟩
  rcases tracks.pop popped with ⟨stands, waiting⟩
  rcases locatesOperand_or_misused reads with ⟨locate, located⟩ | misused
  · exact waiting.stepBy_eq apart_of_pop stands pc instruction located
  · apply (misused thread.machine).bind_congr
    intro result impossible
    exact impossible.elim

end Partitions
end Interpretation

theorem Program.readsAll_of_covers {program : Program} {assignment : Assignment} {pc : Nat}
    {instruction : Instruction} (covers : assignment.Covers program.support)
    (found : program.get? pc = some instruction) {address : Word}
    (names : instruction.address? = some address) :
    (Interpretation.ofAssignment assignment).ReadsAll address.bits := by
  apply Interpretation.readsAll_of_covers
  have occurs := Assignment.covers_flatMap.mp covers instruction (List.mem_of_getElem? found)
  rwa [names] at occurs

/-! ## Runs -/

/-- The predicates of a run divide the assignments among its threads.  From each state
through which it passes the run goes on, exactly one thread of the state has a predicate
that holds, and in the step that follows no two threads are joined whose predicates both
hold. -/
theorem Program.one_predicate_holds (program : Program) (machine : Machine)
    (wellFormed : machine.WellFormed) (assignment : Assignment)
    (covers : assignment.Covers (machine.support ++ program.support))
    {session later : Session} {count : Nat} {progress : Progress}
    (iterates : program.Iterates machine session count progress later) :
    (∀ limit, count ≤ limit ->
      (program.explore limit limit (.start machine)).run.run.run session =
        (program.explore limit (limit - count) progress).run.run.run later) ∧
    (∃! control, ∃ thread, progress.thread? control = some thread ∧
      assignment.evaluate thread.predicate = some true) ∧
    ∀ pc thread rest instruction,
      progress.pending.popFirst? = some ((pc, thread), rest) ->
      program.get? pc = some instruction ->
      ∀ otherwise,
        Progress.stepBy (Thread.joinOr assignment otherwise) { progress with pending := rest } pc
          thread instruction =
        Progress.step { progress with pending := rest } pc thread instruction := by
  have parts := Assignment.covers_append.mp covers
  rcases wellFormed.exists_processor parts.1 with ⟨start, represents⟩
  have partitions : (Interpretation.ofAssignment assignment).Partitions machine.memory.strategy
      progress := by
    apply iterates.keeps
    · have follows : (Interpretation.ofAssignment assignment).Follows machine.memory.strategy program
          assignment.locate start (.start machine) := represents.follows_start
      rcases follows with ⟨control, processor, tracks, _⟩
      exact ⟨control, processor, tracks⟩
    · intro progress pc thread rest instruction kept popped found
      exact kept.step popped fun address names => readsAll_of_covers parts.2 found names
  refine ⟨fun limit within => iterates.explore_eq within, partitions.existsUnique, ?_⟩
  intro pc thread rest instruction popped found otherwise
  exact partitions.stepBy_eq popped (fun address names => readsAll_of_covers parts.2 found names)
    otherwise

/-- After a branch on an open flag two threads are pending, and the next step joins them.
Whatever the assignment, one of both predicates holds, and the join is free to do anything
where both hold. -/
theorem Program.one_predicate_holds_rotateIfSet :
    let assignment : Assignment := .ofList [(0, true), (1, true)]
    Machine.openCarry.WellFormed ∧
    assignment.Covers (Machine.openCarry.support ++ rotateIfSet.support) ∧
    ∃ progress later thread rest, rotateIfSet.Iterates .openCarry {} 1 progress later ∧
      progress.pending.popFirst? = some ((1, thread), rest) ∧ (rest.get? 2).isSome ∧
      (∃! control, ∃ thread, progress.thread? control = some thread ∧
        assignment.evaluate thread.predicate = some true) ∧
      ∀ otherwise,
        Progress.stepBy (Thread.joinOr assignment otherwise) { progress with pending := rest } 1
          thread (.rotateMemory .halfOpenAddress) =
        Progress.step { progress with pending := rest } 1 thread
          (.rotateMemory .halfOpenAddress) := by
  intro assignment
  have covers : assignment.Covers (Machine.openCarry.support ++ rotateIfSet.support) := by
    decide
  have forked : ∃ progress later thread rest,
      rotateIfSet.Iterates .openCarry {} 1 progress later ∧
      progress.pending.popFirst? = some ((1, thread), rest) ∧ (rest.get? 2).isSome :=
    ⟨_, _, _, _, .step .start rfl rfl rfl, rfl, rfl⟩
  rcases forked with ⟨progress, later, thread, rest, iterates, popped, waiting⟩
  have divided := one_predicate_holds rotateIfSet .openCarry Machine.openCarry_wellFormed
    assignment covers iterates
  exact ⟨Machine.openCarry_wellFormed, covers, progress, later, thread, rest, iterates, popped,
    waiting, divided.2.1, divided.2.2 1 thread rest _ popped rfl⟩

end SymbolicMachine
