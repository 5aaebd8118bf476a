import SymbolicMachine.Proofs.Multiplication
import SymbolicMachine.Proofs.MultiplierExploration
import SymbolicMachine.Proofs.RenamedRuns
import SymbolicMachine.Proofs.RunOutcomes

namespace SymbolicMachine

/-!
# The budget of the multiplier

The trace of an exploration of the multiplier is a function of where the exploration stands and
of the rounds in which it has executed the addition.  Every round executes all of its
instructions once, apart from the two of the addition, which it may skip.  An undecided branch
does not skip it, so a round forks only if it executes the addition, and it joins what it forks.
Each of these is a balance between what a move counts and where it leads.

A run therefore takes 52 instructions and two for each addition.  With a lower limit it is
abandoned, and with any other it comes to one and the same result.
-/

namespace Multiplier

open Interpretation (ground)

/-! ## What a move counts -/

/-- How often an exploration has passed an instruction when it stands at a point: once in each
finished round, if the instruction belongs to the round, and once more if it lies behind. -/
def Point.passes (point : Point) (pc : Nat) : Nat :=
  (if 3 ≤ pc ∧ pc ≤ 10 then 8 - point.left else 0) + if pc < point.pc then 1 else 0

namespace Point

/-- One instruction further, the one that was next lies behind. -/
theorem passes_succ (here left : Nat) (waiting waitingNext : Bool) (pc : Nat) :
    passes ⟨here + 1, left, waitingNext⟩ pc =
      passes ⟨here, left, waiting⟩ pc + if pc = here then 1 else 0 := by
  simp only [passes]
  split_ifs <;> omega

/-- A skipped addition comes to lie behind as well. -/
theorem passes_skip (left pc : Nat) :
    passes ⟨7, left, false⟩ pc =
      passes ⟨4, left, false⟩ pc + if pc = 4 ∨ pc = 5 ∨ pc = 6 then 1 else 0 := by
  simp only [passes]
  split_ifs <;> omega

/-- What lies behind in a round that is closed is passed in a finished round. -/
theorem passes_again {left : Nat} (unfinished : left < 8) (pc : Nat) :
    passes ⟨3, left, false⟩ pc =
      passes ⟨10, left + 1, false⟩ pc + if pc = 10 then 1 else 0 := by
  simp only [passes]
  split_ifs <;> omega

end Point

namespace Moves

variable {point next : Point} {trace later : Trace}

theorem left_le (moves : Moves point trace next later) : next.left ≤ point.left := by
  cases moves with
  | again more => exact Nat.le_succ _
  | _ => exact Nat.le_refl _

/-- A move has executed what it puts behind, unless that is the addition, which it may skip. -/
theorem passes_add (moves : Moves point trace next later) (small : point.left ≤ 8) (pc : Nat) :
    later.count pc + point.passes pc = trace.count pc + next.passes pc ∨
      (pc = 5 ∨ pc = 6) ∧
        later.count pc + point.passes pc < trace.count pc + next.passes pc := by
  cases moves with
  | @next here left _ inside closes =>
      rw [Trace.count_visit, Point.passes_succ here left false false]
      omega
  | @skip left =>
      -- The only move that puts behind more than it has executed.
      rw [Trace.count_visit, Point.passes_skip]
      split_ifs <;> omega
  | @fork left =>
      rw [Trace.count_fork, Trace.count_visit, Point.passes_succ 4 left false true]
      omega
  | @add left =>
      rw [Trace.count_visit, Point.passes_succ 5 left true true]
      omega
  | @join left =>
      rw [Trace.count_merge, Trace.count_visit, Point.passes_succ 6 left true false]
      omega
  | again more =>
      rw [Trace.count_visit, Point.passes_again small]
      omega

/-- The second instruction of the addition follows the first. -/
theorem addition_add (moves : Moves point trace next later) :
    later.count 5 + (trace.count 6 + if point.pc = 6 then 1 else 0) =
      trace.count 5 + (later.count 6 + if next.pc = 6 then 1 else 0) := by
  cases moves with
  | next inside closes =>
      simp only [Trace.count_visit]
      split_ifs <;> omega
  | add => simp [Nat.add_assoc, Nat.add_comm 1]
  | _ => simp

/-- A fork is paid for by the addition that follows it. -/
theorem forks_add (moves : Moves point trace next later) :
    later.forks + (trace.count 5 + if point.pc = 5 then 1 else 0) ≤
      trace.forks + (later.count 5 + if next.pc = 5 then 1 else 0) := by
  cases moves with
  | next inside closes =>
      simp only [Trace.count_visit, Trace.forks_visit]
      split_ifs <;> omega
  | fork =>
      -- The fork leads to the addition, which it counts in advance.
      have same : (trace.visit 4).fork.count 5 = trace.count 5 := by simp
      change trace.forks + 1 + trace.count 5 ≤ trace.forks + ((trace.visit 4).fork.count 5 + 1)
      omega
  | _ => simp

/-- A thread waits from the fork to the join. -/
theorem merges_add (moves : Moves point trace next later) :
    later.forks + (trace.merges + if point.waiting then 1 else 0) =
      trace.forks + (later.merges + if next.waiting then 1 else 0) := by
  cases moves with
  | fork =>
      change trace.forks + 1 + trace.merges = trace.forks + (trace.merges + 1)
      omega
  | _ => rfl

end Moves

/-! ## The tally -/

/-- What a trace has counted when the exploration stands at a point. -/
structure Tally (point : Point) (trace : Trace) : Prop where
  small : point.left ≤ 8
  passes : ∀ {pc}, pc ≠ 5 ∧ pc ≠ 6 -> trace.count pc = point.passes pc
  addition : trace.count 5 = trace.count 6 + if point.pc = 6 then 1 else 0
  additions : trace.count 6 ≤ point.passes 6
  forks : trace.forks ≤ trace.count 5 + if point.pc = 5 then 1 else 0
  merges : trace.forks = trace.merges + if point.waiting then 1 else 0

theorem tally_start : Tally ⟨0, 8, false⟩ {} := by
  constructor <;> simp [Trace.count, Point.passes]

theorem Tally.moves {point next : Point} {trace later : Trace} (tally : Tally point trace)
    (moves : Moves point trace next later) : Tally next later where
  small := moves.left_le.trans tally.small
  passes := by
    intro pc plain
    have balance := moves.passes_add tally.small pc
    have before := tally.passes plain
    omega
  addition := by
    have balance := moves.addition_add
    have before := tally.addition
    omega
  additions := by
    have balance := moves.passes_add tally.small 6
    have before := tally.additions
    omega
  forks := by
    have balance := moves.forks_add
    have before := tally.forks
    omega
  merges := by
    have balance := moves.merges_add
    have before := tally.merges
    omega

/-- What a finished run has counted if it executed the addition so many times. -/
structure Spent (added : Nat) (trace : Trace) : Prop where
  steps : trace.steps = 52 + 2 * added
  once : ∀ pc ∈ [0, 1, 2, 11], trace.count pc = 1
  rounds : ∀ pc ∈ [3, 4, 7, 8, 9, 10], trace.count pc = 8
  addition : ∀ pc ∈ [5, 6], trace.count pc = added
  merges : trace.forks = trace.merges
  forks : trace.forks ≤ added

/-- Behind the halt the counts are those of all rounds. -/
theorem Tally.spent {trace : Trace} (tally : Tally ⟨12, 1, false⟩ trace)
    (counted : trace.steps = ∑ pc ∈ Finset.range 12, trace.count pc) :
    trace.count 6 ≤ 8 ∧ Spent (trace.count 6) trace := by
  have once : ∀ pc ∈ [0, 1, 2, 11], trace.count pc = 1 := by
    simp [tally.passes, Point.passes]
  have rounds : ∀ pc ∈ [3, 4, 7, 8, 9, 10], trace.count pc = 8 := by
    simp [tally.passes, Point.passes]
  have addition : trace.count 5 = trace.count 6 := tally.addition
  refine ⟨tally.additions, ⟨?_, once, rounds, ?_, tally.merges, ?_⟩⟩
  · simp only [List.forall_mem_cons] at once rounds
    simp only [Finset.sum_range_succ, Finset.sum_range_zero] at counted
    omega
  · simp [addition]
  · rw [← addition]
    exact tally.forks

/-! ## Runs -/

variable {program : Program} {factor1 factor2 low : Word} {locate : Word -> UInt32}
  {strategy : Strategy} {machine : Machine} {processor : Processor}

/-- Every state of a run stands at a point and is tallied there. -/
theorem iterates_tally {session later : Session} {count : Nat} {progress : Progress}
    (code : program.instructions = instructions factor1 factor2 low)
    (located : ground.Locates program locate)
    (represents : ground.Represents strategy machine processor)
    (iterates : program.Iterates machine session count progress later) :
    ∃ point, StandsAt strategy point progress ∧ Tally point progress.trace := by
  apply iterates.keeps
  · exact ⟨_, .start represents, tally_start⟩
  · rintro progress pc thread rest instruction ⟨point, stands, tally⟩ popped found
    apply (stands.step code located popped found).returns.mono
    rintro next ⟨reached, moves, nextStands⟩
    exact ⟨reached, nextStands, tally.moves moves⟩

/-- The multiplier comes to its halt in every session, after two instructions more for every
time that it adds. -/
theorem exists_drained (code : program.instructions = instructions factor1 factor2 low)
    (located : ground.Locates program locate)
    (represents : ground.Represents strategy machine processor) (session : Session) :
    ∃ added ≤ 8, ∃ progress later thread,
      program.Iterates machine session (52 + 2 * added) progress later ∧
      progress.pending.popFirst? = none ∧ progress.halted = some thread ∧
      Spent added progress.trace := by
  rcases run_completes code located represents (Nat.le_refl 68) session with ⟨_, ended, _, rfl, _⟩
  rw [Program.run_eq_iff] at ended
  cases ended with
  | @halted count progress later thread iterates _ drained halted =>
      rcases iterates_tally code located represents iterates with ⟨point, stands, tally⟩
      cases (stands.halted_of_drained drained).1
      have length : program.length = 12 := by
        rw [Program.length, code]
        rfl
      have counted := iterates.steps_eq_sum
      rw [length] at counted
      rcases tally.spent counted with ⟨atMost, spent⟩
      rw [← iterates.steps_eq, spent.steps] at iterates
      exact ⟨_, atMost, progress, later, thread, iterates, drained, halted, spent⟩

end Multiplier

namespace Verification

/-- What a verification makes of the execution of the multiplier. -/
def conclude (inputs : Inputs) (program : Program) (execution : Execution) :
    ExceptT Error Checked Run := do
  let low ← execution.machine.read inputs.lowAddress
  return { inputs, program, execution, high := execution.machine.a, low }

/-- A verification runs the multiplier from a machine and in a session that do not depend on the
limit. -/
theorem exists_start (strategy : Strategy) {inputs : Inputs} (wellFormed : inputs.WellFormed)
    (session : Session) :
    ∃ (program : Program) (machine : Machine) (start : Session),
      program.instructions = Multiplier.instructions inputs.factor1Address inputs.factor2Address
        inputs.lowAddress ∧
      Interpretation.ground.Represents strategy machine (inputs.processor fun _ => false) ∧
      ∀ limit, (run ⟨strategy, limit⟩ inputs).run.run.run session =
        ((program.run machine limit).adapt Error.execution >>=
          conclude inputs program).run.run.run start := by
  have knows := Interpretation.knows_of_valuation wellFormed fun _ => false
  rcases Multiplier.program_eq_ok inputs.factor1Address inputs.factor2Address inputs.lowAddress
    with ⟨program, assembled, code⟩
  have reported : (liftM (report (.multiplying strategy program.listing)) : Checked Unit).run.run
      session = (.ok (), (report (.multiplying strategy program.listing) session).2) := rfl
  rcases built : (initialMachine ⟨strategy, 0⟩ inputs).run.run
    (report (.multiplying strategy program.listing) session).2 with ⟨initial, start⟩
  rcases knows.initialMachine ⟨strategy, 0⟩ (report (.multiplying strategy program.listing) session).2
    with ⟨machine, found, represents⟩
  rw [built] at found
  cases found
  refine ⟨program, machine, start, code, represents, ?_⟩
  intro limit
  unfold run
  rw [assembled]
  exact (run_lift_bind reported).trans (run_lift_bind built)

theorem run_conclude {inputs : Inputs} {program : Program} {execution : Execution} {low : Word}
    {session : Session}
    (found : ((execution.machine.read inputs.lowAddress).run.run session).1 = .ok low) :
    ((conclude inputs program execution).run.run.run session).1 =
      .ok (.ok { inputs, program, execution, high := execution.machine.a, low }) := by
  have read : (execution.machine.read inputs.lowAddress).run.run session = (.ok low, _) :=
    Prod.ext found rfl
  exact congrArg Prod.fst (run_lift_bind read)

/-- In a session a verification has a result with every limit that allows for 52 instructions and
two for each of so many additions, and is abandoned with every other. -/
def KeepsBudget (strategy : Strategy) (inputs : Inputs) (session : Session) (added : Nat) : Prop :=
  ∀ limit,
    (52 + 2 * added ≤ limit ->
      ∃ finished, ((run ⟨strategy, limit⟩ inputs).run.run.run session).1 = .ok (.ok finished) ∧
        Multiplier.Spent added finished.execution.trace) ∧
    (limit < 52 + 2 * added ->
      ((run ⟨strategy, limit⟩ inputs).run.run.run session).1 =
        .ok (.error (.execution (.stepLimitExceeded limit))))

variable {strategy : Strategy} {inputs : Inputs}

theorem exists_keepsBudget (strategy : Strategy) (wellFormed : inputs.WellFormed)
    (session : Session) : ∃ added ≤ 8, KeepsBudget strategy inputs session added := by
  have knows := Interpretation.knows_of_valuation wellFormed fun _ => false
  rcases exists_start strategy wellFormed session with ⟨program, machine, start, code, represents, runs⟩
  rcases Multiplier.exists_drained code (knows.locates code) represents start with
    ⟨added, atMost, progress, later, thread, iterates, drained, halted, spent⟩
  refine ⟨added, atMost, ?_⟩
  intro limit
  have outcome := iterates.run_eq_of_drained drained halted limit
  rw [runs]
  constructor
  · intro enough
    rw [if_pos enough] at outcome
    have ended : (program.run machine limit).run.run.run start = (.ok (.ok _), _) :=
      Prod.ext outcome rfl
    rcases (represents.run (knows.locates code) limit).of_ok outcome with
      ⟨visited, final, _, _, represented⟩
    rcases represented.read (knows .lowAddress).toUInt32
      ((program.run machine limit).run.run.run start).2 with ⟨low, found, _⟩
    rw [run_bind_ok (run_adapt Error.execution ended), run_conclude found]
    exact ⟨_, rfl, spent⟩
  · intro tooFew
    rw [if_neg (Nat.not_le_of_lt tooFew)] at outcome
    have ended : (program.run machine limit).run.run.run start = (.ok (.error _), _) :=
      Prod.ext outcome rfl
    rw [run_bind_error (run_adapt Error.execution ended)]

theorem KeepsBudget.completes_iff {session : Session} {added : Nat}
    (keeps : KeepsBudget strategy inputs session added) (limit : Nat) :
    (∃ finished, ((run ⟨strategy, limit⟩ inputs).run.run.run session).1 = .ok (.ok finished)) ↔
      52 + 2 * added ≤ limit := by
  constructor
  · rintro ⟨finished, ended⟩
    by_contra tooFew
    rw [(keeps limit).2 (Nat.lt_of_not_le tooFew)] at ended
    cases ended
  · intro enough
    rcases (keeps limit).1 enough with ⟨finished, ended, _⟩
    exact ⟨finished, ended⟩

/-- A newer session does not change the budget of inputs that the older one has named. -/
theorem KeepsBudget.added_eq {older newer : Session} {added other : Nat}
    (keeps : KeepsBudget strategy inputs older added)
    (newerKeeps : KeepsBudget strategy inputs newer other)
    (below : inputs.NamedBelow older.nextName) (aged : older.nextName ≤ newer.nextName) :
    added = other := by
  have together : ∀ limit, 52 + 2 * added ≤ limit ↔ 52 + 2 * other ≤ limit := by
    intro limit
    rw [← keeps.completes_iff, ← newerKeeps.completes_iff]
    exact (outcomes_alike below aged ⟨strategy, limit⟩).completes_iff
  have atMost := (together (52 + 2 * other)).mpr (Nat.le_refl _)
  have atLeast := (together (52 + 2 * added)).mp (Nat.le_refl _)
  omega

/-- The multiplier always runs to completion, within a budget of 52 instructions and two for each
of at most eight additions.  How often it adds depends on the inputs and on the shape of memory
alone, and not on what else the session has built. -/
theorem run_within_budget (strategy : Strategy) (inputs : Inputs)
    (wellFormed : inputs.WellFormed) :
    ∃ added : Session -> Nat,
      (∀ session, added session ≤ 8 ∧ KeepsBudget strategy inputs session (added session)) ∧
      ∀ first second : Session, inputs.NamedBelow first.nextName ->
        inputs.NamedBelow second.nextName -> added first = added second := by
  choose added atMost keeps using exists_keepsBudget strategy wellFormed
  refine ⟨added, fun session => ⟨atMost session, keeps session⟩, ?_⟩
  intro first second firstNamed secondNamed
  rcases Nat.le_total first.nextName second.nextName with aged | aged
  · exact (keeps first).added_eq (keeps second) firstNamed aged
  · exact ((keeps second).added_eq (keeps first) secondNamed aged).symm

theorem halfOpen_namedBelow (bound : Nat) : halfOpen.NamedBelow bound := by
  have plain : ∀ name, (halfOpen.get name).toWord.bits.all
      (fun bit => bit.known.isSome || bit.variableId.isSome) = true := by
    intro name
    cases name <;> decide
  intro name bit member
  have unnamed := List.all_eq_true.mp (plain name) bit member
  cases bit with
  | literal value => trivial
  | var id => trivial
  | notGate wire input => cases unnamed
  | andGate leftWire left rightWire right => cases unnamed

/-- The first factor of `halfOpen` has one open bit and two that are set, so that the second is
added three times. -/
theorem run_within_budget_halfOpen :
    halfOpen.WellFormed ∧ ∀ session, KeepsBudget .dense halfOpen session 3 := by
  have wellFormed := halfOpen_wellFormed
  have steps : (((run ⟨.dense, 68⟩ halfOpen).run.run.run {}).1.toOption.bind Except.toOption).map
      (fun finished => finished.execution.trace.steps) = some 58 := by
    decide +kernel
  rcases run_within_budget .dense halfOpen wellFormed with ⟨added, budget, same⟩
  have atFirst : added {} = 3 := by
    have atMost := (budget {}).1
    rcases ((budget {}).2 68).1 (by omega) with ⟨finished, ended, spent⟩
    rw [ended] at steps
    have counted := spent.steps.symm.trans (Option.some.inj steps)
    omega
  refine ⟨wellFormed, ?_⟩
  intro session
  rw [← atFirst, ← same session {} (halfOpen_namedBelow _) (halfOpen_namedBelow _)]
  exact (budget session).2

end Verification
end SymbolicMachine
