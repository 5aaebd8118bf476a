import SymbolicMachine.Execution.Basic
import SymbolicMachine.Proofs.MachineStep

namespace SymbolicMachine

/-!
# Exploration follows every run

Under an interpretation exactly one path through a program is taken.  An exploration does
not know which, but at every moment the processor that takes it stands in one place, and
of all threads only the one in that place has a predicate that holds.  That thread's
machine represents the processor.  The machines of other threads represent some processor
each, so that joining them is no misuse, but nothing depends on which.

A step may execute an instruction for a thread whose predicate fails.  This changes
nothing.  If the predicate holds, the processor takes the same step.  When nothing is
pending any more, the processor must have halted.
-/

/-- The thread in a place of a run on its way. -/
def Progress.thread? (progress : Progress) : Control -> Option Thread
  | .running pc => progress.pending.get? pc
  | .halted => progress.halted

theorem Progress.thread?_insert (progress : Progress) (pc : Nat) (thread : Thread) (trace : Trace)
    (other : Control) :
    thread? { progress with pending := progress.pending.insert pc thread, trace } other =
      if other = .running pc then some thread else progress.thread? other := by
  cases other with
  | running => simp [thread?]
  | halted => simp [thread?]

theorem Progress.thread?_retire (progress : Progress) (thread : Thread) (trace : Trace)
    (other : Control) :
    thread? { progress with halted := some thread, trace } other =
      if other = .halted then some thread else progress.thread? other := by
  cases other with
  | running => simp [thread?]
  | halted => simp [thread?]

/-- Taking the first pending thread away leaves all others. -/
theorem Progress.thread?_waiting {progress : Progress} {pc : Nat} {thread : Thread}
    {rest : Table Thread} (popped : progress.pending.popFirst? = some ((pc, thread), rest))
    (other : Control) :
    thread? { progress with pending := rest } other =
      if other = .running pc then none else progress.thread? other := by
  rcases Table.get?_of_popFirst? popped with ⟨_, gone, others⟩
  cases other with
  | running number =>
      by_cases here : number = pc
      · subst here
        simpa [thread?] using gone
      · simpa [thread?, here] using (others number here).symm
  | halted => simp [thread?]

/-- The rule of exploration.  What every step keeps holds at the end. -/
theorem Program.explore_ends {program : Program} {limit : Nat}
    {property : Except ExecutionError Progress -> Prop} (invariant : Nat -> Progress -> Prop)
    (drained : ∀ {remaining progress}, invariant remaining progress ->
      progress.pending.popFirst? = none -> property (.ok progress))
    (abandoned : ∀ {progress pc thread rest}, invariant 0 progress ->
      progress.pending.popFirst? = some ((pc, thread), rest) ->
      property (.error (.stepLimitExceeded limit)))
    (outside : ∀ {remaining progress pc thread rest}, invariant (remaining + 1) progress ->
      progress.pending.popFirst? = some ((pc, thread), rest) -> program.get? pc = none ->
      property (.error (.counterOutOfRange pc program.length)))
    (stepped : ∀ {remaining progress pc thread rest instruction},
      invariant (remaining + 1) progress ->
      progress.pending.popFirst? = some ((pc, thread), rest) ->
      program.get? pc = some instruction ->
      Succeeds (Progress.step { progress with pending := rest } pc thread instruction)
        (invariant remaining))
    {remaining : Nat} {progress : Progress} (initially : invariant remaining progress) :
    Ends (program.explore limit remaining progress) property := by
  induction remaining generalizing progress with
  | zero =>
      unfold Program.explore
      cases popped : progress.pending.popFirst? with
      | none => exact .pure (drained initially popped)
      | some entry =>
          apply Ends.report_bind
          exact .throw (abandoned initially popped)
  | succ remaining ih =>
      unfold Program.explore
      cases popped : progress.pending.popFirst? with
      | none => exact .pure (drained initially popped)
      | some entry =>
          rcases entry with ⟨⟨pc, thread⟩, rest⟩
          dsimp only
          cases found : program.get? pc with
          | none => exact .throw (outside initially popped found)
          | some instruction =>
              apply Ends.lift_bind (stepped initially popped found)
              intro next kept
              exact ih kept

namespace Interpretation

/-- A thread whose predicate reads as `live`.  A live thread represents the processor. -/
structure Stands (I : Interpretation) (strategy : Strategy) (thread : Thread) (live : Bool)
    (processor : Processor) : Prop where
  predicate : I.Reads thread.predicate live
  machine : ∃ own, I.Represents strategy thread.machine own ∧ (live = true -> own = processor)

/-- The only live thread of a run on its way is in the place of the processor, if the
processor has one.  While its thread is being executed it has none. -/
structure Tracks (I : Interpretation) (strategy : Strategy) (progress : Progress)
    (place : Option Control) (processor : Processor) : Prop where
  stands : ∀ control thread, progress.thread? control = some thread ->
    I.Stands strategy thread (place = some control) processor
  present : ∀ control, place = some control -> (progress.thread? control).isSome

variable {I : Interpretation} {strategy : Strategy} {progress : Progress} {thread : Thread}
  {place : Option Control} {processor : Processor} {live : Bool}

/-! ## Joining and forking threads -/

theorem Stands.of_dead (stands : I.Stands strategy thread false processor)
    (other : Processor) : I.Stands strategy thread false other := by
  rcases stands.machine with ⟨own, represents, _⟩
  exact ⟨stands.predicate, own, represents, fun impossible => nomatch impossible⟩

theorem Stands.join {first second : Thread} {firstLive secondLive : Bool}
    (firstStands : I.Stands strategy first firstLive processor)
    (secondStands : I.Stands strategy second secondLive processor) :
    Succeeds (first.join second) fun joined =>
      I.Stands strategy joined (firstLive || secondLive) processor := by
  rcases firstStands.machine with ⟨firstOwn, firstRepresents, firstSame⟩
  rcases secondStands.machine with ⟨secondOwn, secondRepresents, secondSame⟩
  apply (Represents.merge firstStands.predicate firstRepresents secondRepresents).bind
  intro machine represents
  apply (Succeeds.lift (firstStands.predicate.or secondStands.predicate)).bind
  intro predicate predicateReads
  apply Succeeds.pure
  refine ⟨predicateReads, _, represents, ?_⟩
  intro alive
  cases firstLive with
  | true => exact firstSame rfl
  | false => exact secondSame alive

theorem Stands.fork {side : Bool} {predicate : Bit}
    (stands : I.Stands strategy thread live processor) (reads : I.Reads predicate (live && side)) :
    I.Stands strategy { thread with predicate } (live && side) processor := by
  rcases stands.machine with ⟨own, represents, same⟩
  exact ⟨reads, own, represents, fun both => same (Bool.and_eq_true_iff.mp both).1⟩

/-! ## Scheduling -/

/-- The processor cannot have taken a branch already if it goes on behind it. -/
theorem apart_of_fork (apart : live = true -> place = none) (taken : Bool) (control : Control)
    (behind : (live && !taken) = true) :
    (if (live && taken) = true then some control else place) = none := by
  rcases Bool.and_eq_true_iff.mp behind with ⟨alive, notTaken⟩
  cases taken with
  | true => cases notTaken
  | false =>
      rw [Bool.and_false]
      exact apart alive

/-- A processor whose thread is taken away has no place. -/
theorem apart_of_pop {control : Control} {pc : Nat}
    (here : decide (control = .running pc) = true) :
    (if control = .running pc then none else some control) = none :=
  if_pos (of_decide_eq_true here)

namespace Tracks

/-- While the processor has no place, it may change. -/
theorem of_none (tracks : I.Tracks strategy progress none processor) (other : Processor) :
    I.Tracks strategy progress none other where
  stands control thread found := (tracks.stands control thread found).of_dead other
  present _ impossible := nomatch impossible

/-- The live thread is put in a place, or a dead one, or the join of one of these with the
thread that is there already. -/
theorem put (tracks : I.Tracks strategy progress place processor) {control : Control}
    (apart : live = true -> place = none)
    (stands : I.Stands strategy thread (live || decide (place = some control)) processor)
    {next : Progress} (changed : ∀ other,
      next.thread? other = if other = control then some thread else progress.thread? other) :
    I.Tracks strategy next (if live then some control else place) processor := by
  constructor
  · intro other found foundAt
    rw [changed] at foundAt
    by_cases here : other = control
    · rw [if_pos here] at foundAt
      cases foundAt
      subst here
      cases live with
      | true => simpa using stands
      | false => simpa using stands
    · rw [if_neg here] at foundAt
      have before := tracks.stands other found foundAt
      cases live with
      | true =>
          have elsewhere : ¬ some control = some other := fun same => here (Option.some.inj same).symm
          simpa [apart rfl, elsewhere] using before
      | false => exact before
  · intro other same
    rw [changed]
    by_cases here : other = control
    · rw [if_pos here]
      rfl
    · rw [if_neg here]
      cases live with
      | true => exact absurd (Option.some.inj same).symm here
      | false => exact tracks.present other same

theorem vacant (tracks : I.Tracks strategy progress place processor) {control : Control}
    (empty : progress.thread? control = none) : decide (place = some control) = false := by
  apply decide_eq_false
  intro here
  have present := tracks.present control here
  rw [empty] at present
  cases present

theorem schedule (tracks : I.Tracks strategy progress place processor)
    (apart : live = true -> place = none) (stands : I.Stands strategy thread live processor)
    (pc : Nat) :
    Succeeds (progress.schedule pc thread) fun next =>
      I.Tracks strategy next (if live then some (.running pc) else place) processor := by
  unfold Progress.schedule Progress.scheduleBy
  cases found : progress.pending.get? pc with
  | none =>
      have empty : progress.thread? (.running pc) = none := found
      apply Succeeds.pure
      apply tracks.put apart _ (progress.thread?_insert pc thread _)
      rw [tracks.vacant empty, Bool.or_false]
      exact stands
  | some existing =>
      apply Succeeds.report_bind
      apply ((tracks.stands (.running pc) existing found).join stands).bind
      intro joined joinedStands
      rw [Bool.or_comm] at joinedStands
      exact .pure (tracks.put apart joinedStands (progress.thread?_insert pc joined _))

theorem retire (tracks : I.Tracks strategy progress place processor)
    (apart : live = true -> place = none) (stands : I.Stands strategy thread live processor)
    (pc : Nat) :
    Succeeds (progress.retire pc thread) fun next =>
      I.Tracks strategy next (if live then some .halted else place) processor := by
  apply Succeeds.report_bind
  cases found : progress.halted with
  | none =>
      have empty : progress.thread? .halted = none := found
      apply Succeeds.pure
      apply tracks.put apart _ (progress.thread?_retire thread _)
      rw [tracks.vacant empty, Bool.or_false]
      exact stands
  | some previous =>
      apply ((tracks.stands .halted previous found).join stands).bind
      intro joined joinedStands
      rw [Bool.or_comm] at joinedStands
      exact .pure (tracks.put apart joinedStands (progress.thread?_retire joined _))

/-- Of a thread and its fork at most one is live, namely the one that goes where the
processor goes. -/
theorem follow (tracks : I.Tracks strategy progress place processor)
    (apart : live = true -> place = none) (stands : I.Stands strategy thread live processor)
    {condition : Bit} {taken : Bool} (conditionReads : I.Reads condition taken)
    (pc destination : Nat) :
    Succeeds (progress.follow pc thread condition destination) fun next =>
      I.Tracks strategy next
        (if live then some (.running (if taken then destination else pc + 1)) else place)
        processor := by
  unfold Progress.follow Progress.followBy
  cases known : condition.known with
  | some value =>
      have decided : taken = value := conditionReads.eq_of_known known
      subst decided
      cases taken with
      | true => exact tracks.schedule apart stands destination
      | false => exact tracks.schedule apart stands (pc + 1)
  | none =>
      apply Succeeds.report_bind
      apply (Succeeds.lift (stands.predicate.and conditionReads)).bind
      intro here hereReads
      apply (Succeeds.lift conditionReads.not).bind
      intro negated negatedReads
      apply (Succeeds.lift (stands.predicate.and negatedReads)).bind
      intro there thereReads
      have counted : I.Tracks strategy { progress with trace := progress.trace.fork } place
          processor := ⟨tracks.stands, tracks.present⟩
      have apartHere : (live && taken) = true -> place = none :=
        fun both => apart (Bool.and_eq_true_iff.mp both).1
      apply (counted.schedule apartHere (stands.fork hereReads) destination).bind
      intro scheduled scheduledTracks
      have apartThere := apart_of_fork apart taken (.running destination)
      apply (scheduledTracks.schedule apartThere (stands.fork thereReads) (pc + 1)).mono
      intro next nextTracks
      cases live <;> cases taken <;> exact nextTracks

/-! ## Steps -/

variable {locate : Word -> UInt32}

/-- A live thread executes what the processor executes.  Another thread leaves the processor
as it is. -/
theorem execute (tracks : I.Tracks strategy progress place processor)
    (apart : live = true -> place = none) (stands : I.Stands strategy thread live processor)
    (pc : Nat) (instruction : Instruction)
    (located : I.LocatesOperand instruction locate) :
    Succeeds (instruction.execute thread.machine) fun result => ∃ control,
      I.Leads pc result.2 control ∧
      (live = true -> control = processor.after instruction pc) ∧
      I.Tracks strategy { progress with trace := progress.trace.visit pc } place
        (if live then processor.act locate instruction else processor) ∧
      I.Stands strategy { thread with machine := result.1 } live
        (if live then processor.act locate instruction else processor) := by
  rcases stands.machine with ⟨own, represents, same⟩
  apply (represents.execute pc instruction located).mono
  rintro ⟨machine, flow⟩ ⟨executed, leads⟩
  refine ⟨own.after instruction pc, leads, fun alive => by rw [same alive], ?_, ?_⟩
  · cases live with
    | true =>
        rw [apart rfl] at tracks ⊢
        exact ⟨(tracks.of_none _).stands, (tracks.of_none processor).present⟩
    | false => exact ⟨tracks.stands, tracks.present⟩
  · refine ⟨stands.predicate, _, executed, ?_⟩
    intro alive
    rw [if_pos alive, same alive]

/-- A step of a live thread is a step of the processor, and a step of another thread
leaves the processor where it is. -/
theorem step (tracks : I.Tracks strategy progress place processor)
    (apart : live = true -> place = none) (stands : I.Stands strategy thread live processor)
    (pc : Nat) (instruction : Instruction)
    (located : I.LocatesOperand instruction locate) :
    Succeeds (progress.step pc thread instruction) fun next =>
      I.Tracks strategy next (if live then some (processor.after instruction pc) else place)
        (if live then processor.act locate instruction else processor) := by
  apply (tracks.execute apart stands pc instruction located).bind
  rintro ⟨machine, flow⟩ ⟨control, leads, goes, moved, advanced⟩
  have goal : (if live then some (processor.after instruction pc) else place) =
      if live then some control else place := by
    cases live with
    | true => rw [goes rfl]
    | false => rfl
  rw [goal]
  cases flow with
  | next =>
      rw [show control = .running (pc + 1) from leads]
      exact moved.schedule apart advanced (pc + 1)
  | branch condition destination =>
      rcases leads with ⟨taken, conditionReads, leads⟩
      rw [leads]
      exact moved.follow apart advanced conditionReads pc destination
  | halt =>
      rw [show control = .halted from leads]
      exact moved.retire apart advanced pc

/-- Taking the first pending thread away leaves the processor without a place if that
thread is live, and where it is if not. -/
theorem pop {control : Control} (tracks : I.Tracks strategy progress (some control) processor)
    {pc : Nat} {rest : Table Thread}
    (popped : progress.pending.popFirst? = some ((pc, thread), rest)) :
    I.Stands strategy thread (control = .running pc) processor ∧
    I.Tracks strategy { progress with pending := rest }
      (if control = .running pc then none else some control) processor := by
  have first : progress.thread? (.running pc) = some thread := (Table.get?_of_popFirst? popped).1
  have kept : ∀ other, other ≠ .running pc ->
      Progress.thread? { progress with pending := rest } other = progress.thread? other := by
    intro other different
    rw [Progress.thread?_waiting popped, if_neg different]
  have removed : Progress.thread? { progress with pending := rest } (.running pc) = none := by
    rw [Progress.thread?_waiting popped, if_pos rfl]
  constructor
  · simpa using tracks.stands (.running pc) thread first
  · constructor
    · intro other found foundAt
      have different : other ≠ .running pc := by
        rintro rfl
        rw [removed] at foundAt
        cases foundAt
      rw [kept other different] at foundAt
      have before := tracks.stands other found foundAt
      by_cases here : control = .running pc
      · have elsewhere : ¬ Control.running pc = other := different.symm
        simpa [here, elsewhere] using before
      · simpa [here] using before
    · intro other same
      by_cases here : control = .running pc
      · simp [here] at same
      · rw [if_neg here] at same
        rw [kept other (Option.some.inj same ▸ here)]
        exact tracks.present other same

/-- The first pending thread takes a step.  If it is the processor's, the processor takes the same
step, and if not, the processor stays where it is. -/
theorem advance {control : Control} (tracks : I.Tracks strategy progress (some control) processor)
    {pc : Nat} {rest : Table Thread} {instruction : Instruction}
    (popped : progress.pending.popFirst? = some ((pc, thread), rest))
    (located : I.LocatesOperand instruction locate) :
    Succeeds (Progress.step { progress with pending := rest } pc thread instruction) fun next =>
      control = .running pc ∧
        I.Tracks strategy next (some (processor.after instruction pc))
          (processor.act locate instruction) ∨
      control ≠ .running pc ∧ I.Tracks strategy next (some control) processor := by
  rcases tracks.pop popped with ⟨stands, waiting⟩
  apply (waiting.step apart_of_pop stands pc instruction located).mono
  intro next nextTracks
  by_cases here : control = .running pc
  · simp only [here, decide_true, if_true] at nextTracks
    exact .inl ⟨here, nextTracks⟩
  · simp only [here, decide_false, if_false, Bool.false_eq_true] at nextTracks
    exact .inr ⟨here, nextTracks⟩

/-- A processor for which nothing is pending has halted. -/
theorem halted_of_drained {control : Control}
    (tracks : I.Tracks strategy progress (some control) processor)
    (drained : progress.pending.popFirst? = none) : control = .halted := by
  cases control with
  | halted => rfl
  | running pc =>
      have present := tracks.present (.running pc) rfl
      rw [Progress.thread?, Table.get?_eq_none_of_popFirst? drained] at present
      cases present

end Tracks

/-! ## Runs -/

variable {program : Program} {locate : Word -> UInt32}

/-- Every address in a program denotes its location. -/
def Locates (I : Interpretation) (program : Program) (locate : Word -> UInt32) : Prop :=
  ∀ instruction ∈ program.instructions, ∀ address, instruction.address? = some address ->
    I.Denotes addressBits address (locate address).toNat

/-- The processor has come from the start of a run to where the exploration tracks it:
whatever run it completes from there, it completes from the start. -/
def Follows (I : Interpretation) (strategy : Strategy) (program : Program)
    (locate : Word -> UInt32) (start : Processor) (progress : Progress) : Prop :=
  ∃ control processor, I.Tracks strategy progress (some control) processor ∧
    ∀ visited final, Runs program locate control processor visited final ->
      ∃ longer, Runs program locate (.running 0) start longer final

theorem Follows.step {start : Processor} {pc : Nat} {rest : Table Thread}
    {instruction : Instruction} (located : I.Locates program locate)
    (follows : I.Follows strategy program locate start progress)
    (popped : progress.pending.popFirst? = some ((pc, thread), rest))
    (found : program.get? pc = some instruction) :
    Succeeds (Progress.step { progress with pending := rest } pc thread instruction)
      (I.Follows strategy program locate start) := by
  rcases follows with ⟨control, processor, tracks, completes⟩
  apply (tracks.advance popped (located instruction (List.mem_of_getElem? found))).mono
  rintro next (⟨rfl, moved⟩ | ⟨_, stayed⟩)
  · refine ⟨_, _, moved, ?_⟩
    intro visited final runs
    exact completes _ _ (.step found runs)
  · exact ⟨control, processor, stayed, completes⟩

/-- A run starts with the processor at the first instruction. -/
theorem Represents.tracks_start {machine : Machine} {start : Processor}
    (represents : I.Represents strategy machine start) :
    I.Tracks strategy (.start machine) (some (.running 0)) start := by
  constructor
  · intro control thread found
    cases control with
    | running pc =>
        rw [Progress.thread?, Progress.start, Table.get?_insert] at found
        by_cases first : pc = 0
        · rw [if_pos first] at found
          cases found
          subst first
          exact ⟨reads_literal true, start, represents, fun _ => rfl⟩
        · rw [if_neg first] at found
          cases found
    | halted => cases found
  · intro control same
    cases same
    rfl

theorem Represents.follows_start {machine : Machine} {start : Processor}
    (represents : I.Represents strategy machine start) :
    I.Follows strategy program locate start (.start machine) :=
  ⟨.running 0, start, represents.tracks_start, fun visited _ runs => ⟨visited, runs⟩⟩

theorem Follows.explore {start : Processor} (located : I.Locates program locate)
    (follows : I.Follows strategy program locate start progress) (limit remaining : Nat) :
    Yields (program.explore limit remaining progress) fun last =>
      ∃ visited final, Runs program locate (.running 0) start visited final ∧
        I.Tracks strategy last (some .halted) final := by
  apply Program.explore_ends fun _ => I.Follows strategy program locate start
  · rintro remaining progress ⟨control, processor, tracks, completes⟩ drained last ⟨⟩
    have halted := tracks.halted_of_drained drained
    subst halted
    rcases completes [] processor (.halted processor) with ⟨visited, runs⟩
    exact ⟨visited, processor, runs, tracks⟩
  · intro progress pc thread rest _ _ last impossible
    cases impossible
  · intro remaining progress pc thread rest _ _ _ last impossible
    cases impossible
  · intro remaining progress pc thread rest instruction follows popped found
    exact follows.step located popped found
  · exact follows

/-- A program that runs to an end has followed the processor to its halt.  The predicate
of the result holds, and its machine represents the processor as the halt leaves it. -/
theorem Represents.run {machine : Machine} {start : Processor}
    (represents : I.Represents strategy machine start) (located : I.Locates program locate)
    (limit : Nat) :
    Yields (program.run machine limit) fun execution =>
      ∃ visited final, Runs program locate (.running 0) start visited final ∧
        I.Reads execution.predicate true ∧
        I.Represents strategy execution.machine final := by
  apply (represents.follows_start.explore located limit limit).bind
  rintro last ⟨visited, final, runs, tracks⟩
  cases halted : last.halted with
  | none => exact .throw
  | some thread =>
      have stands := tracks.stands .halted thread halted
      rcases stands.machine with ⟨own, ownRepresents, same⟩
      have owned : own = final := same (decide_eq_true rfl)
      subst owned
      apply Yields.report_bind
      apply Yields.pure
      exact ⟨visited, own, runs, stands.predicate, ownRepresents⟩

end Interpretation
end SymbolicMachine
