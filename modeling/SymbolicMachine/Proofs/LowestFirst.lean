import Mathlib.Algebra.Order.BigOperators.Group.Finset
import SymbolicMachine.Proofs.KnownRuns
import SymbolicMachine.Proofs.RunOutcomes

namespace SymbolicMachine

/-!
# The lowest thread goes first

Of all pending threads the one at the lowest number goes next.  Unless its instruction leads back,
everything that is pending afterwards is above that number, so the instruction is not executed again
before some thread has turned back.  Paths that part and meet again are joined on the way, and what
follows is executed once for all of them.

How often an instruction is executed is therefore bounded by how often branches are executed that
may lead back, whatever is open.  A program in which no branch leads back is executed once from end
to end at most, however many of its branches fork.
-/

/-! ## Branches that lead back -/

/-- An instruction may lead back to itself or to an earlier one. -/
def Instruction.leadsBack (pc : Nat) (instruction : Instruction) : Bool :=
  instruction.target?.any (· ≤ pc)

/-- Any other instruction leads on. -/
theorem Instruction.lt_of_leadsTo {instruction : Instruction} {pc next : Nat}
    (onward : instruction.leadsBack pc = false)
    (leads : .running next ∈ instruction.leadsTo pc) : pc < next := by
  cases instruction with
  | branchIfClear flag target =>
      have ahead : pc < target := by simpa [leadsBack, target?] using onward
      simp only [leadsTo, List.mem_cons, Control.running.injEq, List.not_mem_nil, or_false] at leads
      omega
  | halt => simp [leadsTo] at leads
  | _ =>
      simp only [leadsTo, List.mem_singleton, Control.running.injEq] at leads
      omega

namespace Program

variable {program : Program} {machine : Machine} {session later : Session} {count pc : Nat}
  {progress next : Progress} {thread : Thread} {rest : Table Thread} {instruction : Instruction}

/-- The numbers of the branches of a program that may lead back. -/
def backward (program : Program) : Finset Nat :=
  {pc ∈ Finset.range program.length | (program.get? pc).any (Instruction.leadsBack pc)}

theorem mem_backward (found : program.get? pc = some instruction) :
    pc ∈ program.backward ↔ instruction.leadsBack pc = true := by
  have inside : pc < program.length := (List.getElem?_eq_some_iff.mp found).1
  simp [backward, inside, found]

/-- How often branches that may lead back have been executed. -/
def turns (program : Program) (trace : Trace) : Nat :=
  ∑ pc ∈ program.backward, trace.count pc

theorem turns_advance (found : program.get? pc = some instruction)
    (advances : progress.Advances pc instruction next) :
    program.turns next.trace =
      program.turns progress.trace + if instruction.leadsBack pc then 1 else 0 := by
  simp only [turns, advances.count, Finset.sum_add_distrib, Finset.sum_ite_eq', mem_backward found]

/-! ## Between two turns -/

/-- No instruction has been executed more often than there were turns, once apart.  Even that once
is still to come where a pending thread may reach the instruction without a turn. -/
structure Paces (program : Program) (progress : Progress) : Prop where
  atMost : ∀ pc, progress.trace.count pc ≤ program.turns progress.trace + 1
  ahead : ∀ pc pending, pending ≤ pc -> progress.Occupied (.running pending) ->
    progress.trace.count pc ≤ program.turns progress.trace

theorem paces_start (program : Program) (machine : Machine) : program.Paces (.start machine) where
  atMost _ := Nat.zero_le _
  ahead _ _ _ _ := Nat.zero_le _

theorem Paces.advance (paces : program.Paces progress)
    (popped : progress.pending.popFirst? = some ((pc, thread), rest))
    (found : program.get? pc = some instruction)
    (advances : Progress.Advances { progress with pending := rest } pc instruction next) :
    program.Paces next := by
  have turned := turns_advance found advances
  have counted : ∀ other, next.trace.count other =
      progress.trace.count other + if other = pc then 1 else 0 := advances.count
  have before := Progress.occupied_of_pop popped
  -- the instruction that is executed was still to come
  have within : ∀ other, next.trace.count other ≤ program.turns progress.trace + 1 := by
    intro other
    rw [counted]
    by_cases executed : other = pc
    · rw [if_pos executed, executed]
      exact Nat.succ_le_succ (paces.ahead pc pc (Nat.le_refl pc) before)
    · rw [if_neg executed]
      exact paces.atMost other
  dsimp only at turned
  constructor
  · intro other
    have atMost := within other
    omega
  · intro other pending below occupied
    cases back : instruction.leadsBack pc with
    | true =>
        rw [turned, back]
        exact within other
    | false =>
        have above : pc < pending := by
          rcases advances.origin occupied with waiting | leads
          · exact Table.lt_of_popFirst? popped waiting
          · exact instruction.lt_of_leadsTo back leads
        have later : pc < other := by omega
        rw [counted, turned, back, if_neg (Nat.ne_of_gt later)]
        exact paces.ahead other pc (Nat.le_of_lt later) before

theorem Iterates.paces (iterates : program.Iterates machine session count progress later) :
    program.Paces progress := by
  apply iterates.keeps (program.paces_start machine)
  intro progress pc thread rest instruction paces popped found
  apply (Progress.step_advances _ pc thread instruction).mono
  intro next advances
  exact paces.advance popped found advances

/-! ## Programs that never lead back -/

/-- Every branch of a program leads to a later instruction. -/
def Forward (program : Program) : Prop :=
  ∀ pc instruction target, program.get? pc = some instruction ->
    instruction.target? = some target -> pc < target

theorem Forward.turns_eq (forward : program.Forward) (trace : Trace) : program.turns trace = 0 := by
  have none : program.backward = ∅ := by
    apply Finset.eq_empty_of_forall_notMem
    intro pc member
    rcases Finset.mem_filter.mp member with ⟨_, back⟩
    rcases (Option.any_eq_true _ _).mp back with ⟨instruction, found, leads⟩
    rcases (Option.any_eq_true _ _).mp leads with ⟨target, branches, below⟩
    have ahead := forward pc instruction target found branches
    exact Nat.not_le_of_lt ahead (of_decide_eq_true below)
  rw [turns, none, Finset.sum_empty]

theorem Iterates.count_le_one (iterates : program.Iterates machine session count progress later)
    (forward : program.Forward) (pc : Nat) : progress.trace.count pc ≤ 1 := by
  have atMost := iterates.paces.atMost pc
  rwa [forward.turns_eq] at atMost

theorem Iterates.steps_le_length (iterates : program.Iterates machine session count progress later)
    (forward : program.Forward) : progress.trace.steps ≤ program.length := by
  calc
    progress.trace.steps = ∑ pc ∈ Finset.range program.length, progress.trace.count pc :=
      iterates.steps_eq_sum
    _ ≤ ∑ _pc ∈ Finset.range program.length, 1 :=
      Finset.sum_le_sum fun pc _ => iterates.count_le_one forward pc
    _ = program.length := by simp

/-! ## Runs -/

/-- An instruction is executed once, and once more at most for every time that a branch is executed
which may lead back.  If there is no such branch, a run executes no instruction twice and no more
instructions than the program has, and a limit above the length of the program never cuts it
off. -/
theorem executed_once_between_turns (program : Program) (machine : Machine) (limit : Nat)
    (session : Session) :
    let outcome := ((program.run machine limit).run.run.run session).1
    (∀ execution, outcome = .ok (.ok execution) -> ∀ pc,
      execution.trace.count pc ≤ 1 + ∑ branch ∈ program.backward, execution.trace.count branch) ∧
    (program.Forward ->
      (∀ execution, outcome = .ok (.ok execution) ->
        (∀ pc, execution.trace.count pc ≤ 1) ∧ execution.trace.steps ≤ program.length) ∧
      (program.length < limit -> ∀ bound, outcome ≠ .ok (.error (.stepLimitExceeded bound)))) := by
  intro outcome
  constructor
  · intro execution ended pc
    rcases run_eq_ok_iff.mp ended with ⟨count, progress, later, thread, iterates, _, _, _, rfl⟩
    rw [Nat.add_comm]
    exact iterates.paces.atMost pc
  · intro forward
    constructor
    · intro execution ended
      rcases run_eq_ok_iff.mp ended with ⟨count, progress, later, thread, iterates, _, _, _, rfl⟩
      exact ⟨iterates.count_le_one forward, iterates.steps_le_length forward⟩
    · intro enough bound abandoned
      rcases run_eq_stepLimitExceeded_iff.mp abandoned with ⟨_, progress, later, iterates, steps, _⟩
      have atMost := iterates.steps_le_length forward
      omega

end Program

/-- Two detours of one instruction each, one after the other. -/
def Program.twoDetours : Program where
  instructions := [.branchIfClear .carry 2, .load .a 1, .branchIfClear .zero 4, .load .x 1, .halt]
  labels := .empty
  branches_inside := target_lt_of_strayBranch?_eq_none
    (show strayBranch? 5 0 [.branchIfClear .carry 2, .load .a 1, .branchIfClear .zero 4,
      .load .x 1, .halt] = none from rfl)

/-- A machine whose flags are open. -/
def Machine.openFlags : Machine :=
  { Machine.openCarry with zero := .var 1 }

/-- With open flags both detours fork, so that there are four paths, and yet each of the five
instructions is executed once.  A loop of three instructions is executed twice, for which it has
turned twice. -/
theorem Program.executed_once_between_turns_twoDetours :
    twoDetours.Forward ∧
    (∃ execution, ((twoDetours.run .openFlags 6).run.run.run {}).1 = .ok (.ok execution) ∧
      execution.trace.forks = 2 ∧ (∀ pc, execution.trace.count pc ≤ 1) ∧
      execution.trace.steps ≤ twoDetours.length) ∧
    (∀ bound, ((twoDetours.run .openFlags 6).run.run.run {}).1 ≠
      .ok (.error (.stepLimitExceeded bound))) ∧
    ∃ execution, ((rotateRepeatedly.run .twoRotations 7).run.run.run {}).1 = .ok (.ok execution) ∧
      execution.trace.count 0 = 2 ∧ rotateRepeatedly.backward = {2} ∧
      ∀ pc, execution.trace.count pc ≤ 1 + execution.trace.count 2 := by
  have forward : twoDetours.Forward := by
    intro pc instruction target found branches
    rcases pc with _ | _ | _ | _ | _ | pc <;> cases found <;> cases branches <;> decide
  have detours : (((twoDetours.run .openFlags 6).run.run.run {}).1.toOption.bind
      Except.toOption).any (fun execution => execution.trace.forks == 2) = true := by
    decide +kernel
  have rounds : (((rotateRepeatedly.run .twoRotations 7).run.run.run {}).1.toOption.bind
      Except.toOption).any (fun execution => execution.trace.count 0 == 2) = true := by
    decide +kernel
  have back : rotateRepeatedly.backward = {2} := by decide
  rcases exists_ok_of_any detours with ⟨joined, joinedEnded, forks⟩
  rcases exists_ok_of_any rounds with ⟨repeated, repeatedEnded, twice⟩
  have joins := (executed_once_between_turns twoDetours .openFlags 6 {}).2 forward
  have turns := (executed_once_between_turns rotateRepeatedly .twoRotations 7 {}).1 repeated
    repeatedEnded
  rw [back, Finset.sum_singleton] at turns
  exact ⟨forward, ⟨joined, joinedEnded, eq_of_beq forks, joins.1 joined joinedEnded⟩,
    joins.2 (by decide), repeated, repeatedEnded, eq_of_beq twice, back, turns⟩

end SymbolicMachine
