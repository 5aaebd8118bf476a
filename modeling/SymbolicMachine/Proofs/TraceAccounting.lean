import SymbolicMachine.Proofs.RunOutcomes

namespace SymbolicMachine

/-!
# What a trace accounts for

A run has at most one thread in a place.  A thread that comes to a vacant place occupies it, and a
thread that comes to an occupied one is merged with the thread that is there.  Whether it is pending
or has halted makes no difference, so the places of a run form one finite set, and what a step does
to its size and to the trace follows from what a step does to places.

The forks and merges in a trace therefore add up to the threads that are there.  The end of a run is
a halted thread and nothing else, and there every fork has found its merge.
-/

/-! ## Places -/

namespace Progress

variable {progress next : Progress} {control : Control} {pc : Nat} {thread : Thread}
  {instruction : Instruction}

/-- The places in which there is a thread. -/
def places (progress : Progress) : Finset Control :=
  (progress.pending.keys.map Control.running ++
    progress.halted.toList.map fun _ => Control.halted).toFinset

theorem mem_places : control ∈ progress.places ↔ progress.Occupied control := by
  cases control with
  | running pc => simp [places, Occupied, thread?, Table.mem_keys]
  | halted => simp [places, Occupied, thread?, Option.isSome_iff_ne_none]

/-- There are as many places as there are threads. -/
theorem card_places (progress : Progress) :
    progress.places.card = progress.pending.size + if progress.halted.isSome then 1 else 0 := by
  have distinct : (progress.pending.keys.map Control.running ++
      progress.halted.toList.map fun _ => Control.halted).Nodup := by
    apply List.Nodup.append
    · exact progress.pending.nodup_keys.map fun _ _ => Control.running.inj
    · cases progress.halted <;> simp
    · simp [List.disjoint_left]
  rw [places, List.toFinset_card_of_nodup distinct, List.length_append, List.length_map,
    Table.length_keys]
  cases progress.halted <;> rfl

theorem places_start (machine : Machine) : (start machine).places = {.running 0} := by
  ext control
  rw [mem_places, occupied_start, Finset.mem_singleton]

/-- Taking the first pending thread away leaves one thread less. -/
theorem card_places_of_pop {rest : Table Thread}
    (popped : progress.pending.popFirst? = some ((pc, thread), rest)) :
    progress.places.card = (places { progress with pending := rest }).card + 1 := by
  have erased : places { progress with pending := rest } = progress.places.erase (.running pc) := by
    ext control
    rw [mem_places, Finset.mem_erase, mem_places, Occupied, thread?_waiting popped]
    by_cases here : control = .running pc
    · simp [here]
    · simp [here, Occupied]
  have present : .running pc ∈ progress.places := mem_places.mpr (occupied_of_pop popped)
  rw [erased, Finset.card_erase_add_one present]

/-! ## The balance of one step -/

/-- A thread that comes to a place is one thread more, or it is merged. -/
theorem Arrives.balance (arrives : progress.Arrives control next) :
    next.places.card + next.trace.merges = progress.places.card + progress.trace.merges + 1 ∧
      next.trace.forks = progress.trace.forks := by
  have put : next.places = insert control progress.places := by
    ext other
    rw [mem_places, arrives.occupied, Finset.mem_insert, mem_places]
  by_cases occupied : progress.Occupied control
  · have merged : next.trace = progress.trace.merge := arrives.trace.trans (if_pos occupied)
    rw [put, Finset.insert_eq_of_mem (mem_places.mpr occupied), merged]
    exact ⟨rfl, rfl⟩
  · have kept : next.trace = progress.trace := arrives.trace.trans (if_neg occupied)
    have vacant : control ∉ progress.places := fun member => occupied (mem_places.mp member)
    rw [put, Finset.card_insert_of_notMem vacant, kept]
    exact ⟨by omega, rfl⟩

/-- An instruction gives back the thread that was taken away for it, and one more for a fork. -/
theorem Advances.balance (advances : progress.Advances pc instruction next) :
    next.places.card + next.trace.merges + progress.trace.forks =
      progress.places.card + progress.trace.merges + next.trace.forks + 1 := by
  cases advances with
  | goes _ arrives =>
      rcases arrives.balance with ⟨balance, forks⟩
      simp only [Trace.forks_visit, Trace.merges_visit] at balance forks
      change next.places.card + _ = progress.places.card + _ + 1 at balance
      omega
  | @forks _ between _ arrivesFirst arrives =>
      rcases arrivesFirst.balance with ⟨balanceFirst, forksFirst⟩
      rcases arrives.balance with ⟨balance, forks⟩
      change between.places.card + _ = progress.places.card + _ + 1 at balanceFirst
      simp only [Trace.forks_fork, Trace.forks_visit, Trace.merges_fork, Trace.merges_visit] at balanceFirst forksFirst
      omega

/-- Every fork has made a thread more, and every merge a thread less. -/
def Balanced (progress : Progress) : Prop :=
  progress.places.card + progress.trace.merges = 1 + progress.trace.forks

theorem balanced_start (machine : Machine) : (start machine).Balanced := by
  rw [Balanced, places_start, Finset.card_singleton]
  rfl

theorem Balanced.advance {rest : Table Thread} (balanced : progress.Balanced)
    (popped : progress.pending.popFirst? = some ((pc, thread), rest))
    (advances : Advances { progress with pending := rest } pc instruction next) :
    next.Balanced := by
  have before := card_places_of_pop popped
  have after := advances.balance
  dsimp only at after
  unfold Balanced at balanced ⊢
  omega

end Progress

/-! ## Runs -/

namespace Program

variable {program : Program} {machine : Machine} {session later : Session} {count : Nat}
  {progress : Progress}

theorem Iterates.balanced (iterates : program.Iterates machine session count progress later) :
    progress.Balanced := by
  apply iterates.keeps (Progress.balanced_start machine)
  intro progress pc thread rest instruction balanced popped _
  apply (Progress.step_advances _ pc thread instruction).mono
  intro next advances
  exact balanced.advance popped advances

/-- Only instructions of the program are executed. -/
theorem Iterates.count_outside (iterates : program.Iterates machine session count progress later)
    {pc : Nat} (outside : program.length ≤ pc) : progress.trace.count pc = 0 := by
  induction iterates with
  | start => rfl
  | @step count executed progress next before after thread rest instruction _ popped found taken ih =>
      have advances := (Progress.step_advances _ executed thread instruction).of_ok taken
      have inside : executed < program.length := (List.getElem?_eq_some_iff.mp found).1
      have elsewhere : pc ≠ executed := by omega
      rw [advances.count, if_neg elsewhere]
      exact ih

/-- The trace of a run with a result accounts for all that happened.  Every fork was merged, every
instruction that was executed is one of the program's and counted there, and in each state through
which the run passed the threads were one and those that forks had made, less those that merges had
taken away. -/
theorem trace_accounts_for_run (program : Program) (machine : Machine) (limit : Nat)
    (session : Session) (execution : Execution)
    (ended : ((program.run machine limit).run.run.run session).1 = .ok (.ok execution)) :
    execution.trace.forks = execution.trace.merges ∧
    execution.trace.steps = ∑ pc ∈ Finset.range program.length, execution.trace.count pc ∧
    (∀ pc, program.length ≤ pc -> execution.trace.count pc = 0) ∧
    ∀ count progress later, program.Iterates machine session count progress later ->
      progress.pending.size + (if progress.halted.isSome then 1 else 0) + progress.trace.merges =
        1 + progress.trace.forks := by
  have throughout : ∀ count progress later,
      program.Iterates machine session count progress later ->
      progress.pending.size + (if progress.halted.isSome then 1 else 0) + progress.trace.merges =
        1 + progress.trace.forks := by
    intro count progress later iterates
    rw [← progress.card_places]
    exact iterates.balanced
  rcases run_eq_ok_iff.mp ended with ⟨count, progress, later, thread, iterates, _, drained, halted, rfl⟩
  refine ⟨?_, iterates.steps_eq_sum, fun pc outside => iterates.count_outside outside, throughout⟩
  have balance := throughout count progress later iterates
  have empty : progress.pending.size = 0 := List.length_eq_zero_iff.mpr (List.isEmpty_iff.mp drained)
  rw [empty, halted] at balance
  simp only [Option.isSome_some, if_true] at balance
  dsimp only
  omega

/-- Load a register in one of two ways and halt in a place of its own after either. -/
def twoHalts : Program where
  instructions := [.branchIfClear .carry 3, .load .x 1, .halt, .load .x 2, .halt]
  labels := .empty
  branches_inside := target_lt_of_strayBranch?_eq_none
    (show strayBranch? 5 0 [.branchIfClear .carry 3, .load .x 1, .halt, .load .x 2, .halt] = none
      from rfl)

/-- With an open flag the run forks once.  After three instructions one thread has halted and the
other is pending, and only the second halt merges them. -/
theorem trace_accounts_for_run_twoHalts :
    (∃ execution, ((twoHalts.run .openCarry 5).run.run.run {}).1 = .ok (.ok execution) ∧
      execution.trace.forks = 1 ∧ execution.trace.merges = 1) ∧
    ∃ progress later, twoHalts.Iterates .openCarry {} 3 progress later ∧
      progress.pending.size = 1 ∧ progress.halted.isSome ∧ progress.trace.merges = 0 := by
  have computed : (((twoHalts.run .openCarry 5).run.run.run {}).1.toOption.bind
      Except.toOption).any (fun execution => execution.trace.forks == 1) = true := by
    decide +kernel
  have halfway : ∃ progress later, twoHalts.Iterates .openCarry {} 3 progress later ∧
      progress.pending.size = 1 ∧ progress.halted.isSome ∧ progress.trace.forks = 1 :=
    ⟨_, _, .step (.step (.step .start rfl rfl rfl) rfl rfl rfl) rfl rfl rfl, rfl, rfl, rfl⟩
  rcases exists_ok_of_any computed with ⟨execution, ended, forked⟩
  have forks : execution.trace.forks = 1 := eq_of_beq forked
  rcases trace_accounts_for_run twoHalts .openCarry 5 {} execution ended with
    ⟨merged, _, _, throughout⟩
  rcases halfway with ⟨progress, later, iterates, one, halted, forksHalfway⟩
  have balance := throughout 3 progress later iterates
  rw [one, if_pos halted, forksHalfway] at balance
  refine ⟨⟨execution, ended, forks, merged ▸ forks⟩, progress, later, iterates, one, halted, ?_⟩
  omega

end Program
end SymbolicMachine
