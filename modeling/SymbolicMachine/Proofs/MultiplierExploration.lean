import SymbolicMachine.Proofs.FewThreads
import SymbolicMachine.Proofs.Frames
import SymbolicMachine.Proofs.Literals
import SymbolicMachine.Proofs.VerificationRun

namespace SymbolicMachine

/-!
# Exploring the multiplier

How often the multiplier goes round is a matter of its counting register alone.  The register
is loaded with a literal, and whatever is done to it or to the machine around it leaves it a
literal, so the branch that closes a round is always decided.  Only the branch within a round
may fork, and then the two threads meet again before the round ends.

An exploration of the multiplier therefore has two threads at most and ends after 68
instructions at the latest, whatever the inputs are made of.  A verification with at least
that limit has a result.

`Point` says where an exploration stands, `Moves` how it can go on from there and what its trace
records of that, and `StandsAt.step` that every step is such a move.
-/

namespace Multiplier

open Interpretation (ground ofLiterals)

/-! ## The counting register -/

/-- A machine that stands for some processor and has a literal in its counting register. -/
structure Counts (strategy : Strategy) (count : Nat) (machine : Machine) : Prop where
  executable : ∃ processor, ground.Represents strategy machine processor
  counter : machine.register .x = .constant count wordBits
  small : count ≤ 8

namespace Counts

variable {strategy : Strategy} {count : Nat} {machine : Machine} {locate : Word -> UInt32}
  {instruction : Instruction}

theorem execute (counts : Counts strategy count machine)
    (located : ground.LocatesOperand instruction locate)
    (plain : instruction.isPlain = true) (kept : instruction.sets .x = false) :
    Succeeds (instruction.execute machine) fun result =>
      Counts strategy count result.1 ∧ result.2 = .next := by
  rcases counts.executable with ⟨processor, represents⟩
  have frame := instruction.execute_frame machine
  apply ((represents.execute 0 instruction located).and_returns frame).mono
  rintro result ⟨⟨executed, _⟩, keeps, goesOn⟩
  exact ⟨⟨⟨_, executed⟩, (keeps .x kept).trans counts.counter, counts.small⟩, goesOn plain⟩

theorem load {processor : Processor} (represents : ground.Represents strategy machine processor)
    (located : ground.LocatesOperand (.load .x 8) locate) :
    Succeeds ((Instruction.load .x 8).execute machine) fun result =>
      Counts strategy 8 result.1 ∧ result.2 = .next := by
  have loaded : Returns ((Instruction.load .x 8).execute machine) fun result =>
      result.1.register .x = .constant 8 wordBits ∧ result.2 = .next := by
    apply (machine.register_withRegister .x _).bind
    intro changed set
    exact .pure ⟨set.1, rfl⟩
  apply ((represents.execute 0 _ located).and_returns loaded).mono
  intro result both
  rcases both with ⟨⟨executed, _⟩, counter, goesOn⟩
  exact ⟨⟨⟨_, executed⟩, counter, Nat.le_refl 8⟩, goesOn⟩

/-- Counting down keeps the register a literal, and shows whether it has come to zero. -/
theorem decrement (counts : Counts strategy (count + 1) machine)
    (located : ground.LocatesOperand (.decrement .x) locate) :
    Succeeds ((Instruction.decrement .x).execute machine) fun result =>
      Counts strategy count result.1 ∧ result.1.flag .zero = .literal (decide (count = 0)) ∧
      result.2 = .next := by
  have small := counts.small
  have denotes : ofLiterals.Denotes wordBits machine.x (count + 1) := by
    have counter : machine.x = .constant (count + 1) wordBits := counts.counter
    rw [counter]
    apply Interpretation.denotes_constant_of_lt
    change count + 1 < 256
    omega
  have less : (count + 1 + 255) % 256 = count := by omega
  rcases counts.executable with ⟨processor, represents⟩
  apply ((represents.execute 0 _ located).and_returns denotes.decrement.returns).mono
  rintro result ⟨⟨executed, _⟩, difference, zero, rfl, differenceDenotes, zeroReads⟩
  rw [less] at differenceDenotes zeroReads
  exact ⟨⟨⟨_, executed⟩, differenceDenotes.eq_constant, Nat.le_of_succ_le small⟩,
    Bit.known_eq_some_iff.mp zeroReads, rfl⟩

/-- Threads that are in the same round are joined in that round. -/
theorem join {first second : Thread} (firstCounts : Counts strategy count first.machine)
    (secondCounts : Counts strategy count second.machine) :
    Succeeds (first.join second) fun joined => Counts strategy count joined.machine := by
  rcases firstCounts.executable with ⟨left, leftRepresents⟩
  rcases secondCounts.executable with ⟨right, rightRepresents⟩
  have predicateReads : ground.Reads first.predicate (first.predicate.eval fun _ => false) := rfl
  have joins : Succeeds (first.join second) fun joined =>
      ∃ processor, ground.Represents strategy joined.machine processor := by
    apply (Interpretation.Represents.merge predicateReads leftRepresents rightRepresents).bind
    intro machine represents
    apply (Succeeds.lift (.any _)).bind
    intro predicate _
    exact .pure ⟨_, represents⟩
  apply (joins.and_returns (first.register_join second)).mono
  rintro joined ⟨executable, kept⟩
  refine ⟨executable, ?_, firstCounts.small⟩
  rw [kept .x (firstCounts.counter.trans secondCounts.counter.symm), firstCounts.counter]

end Counts

/-! ## The points of an exploration -/

/-- Where an exploration of the multiplier stands: the number of the instruction that is next,
twelve behind the halt, the rounds that are not closed yet, and whether a second thread waits
behind the addition. -/
structure Point where
  pc : Nat
  left : Nat
  waiting : Bool

/-- How an exploration can go on at a point, and what its trace records of that. -/
inductive Moves : Point -> Trace -> Point -> Trace -> Prop
  | next {pc left : Nat} {trace : Trace} : pc ≤ 11 -> (pc = 10 -> left = 1) ->
      Moves ⟨pc, left, false⟩ trace ⟨pc + 1, left, false⟩ (trace.visit pc)
  /-- The branch within a round skips the addition. -/
  | skip {left : Nat} {trace : Trace} :
      Moves ⟨4, left, false⟩ trace ⟨7, left, false⟩ (trace.visit 4)
  /-- The branch within a round is undecided. -/
  | fork {left : Nat} {trace : Trace} :
      Moves ⟨4, left, false⟩ trace ⟨5, left, true⟩ (trace.visit 4).fork
  | add {left : Nat} {trace : Trace} :
      Moves ⟨5, left, true⟩ trace ⟨6, left, true⟩ (trace.visit 5)
  /-- The two threads of a round meet. -/
  | join {left : Nat} {trace : Trace} :
      Moves ⟨6, left, true⟩ trace ⟨7, left, false⟩ (trace.visit 6).merge
  /-- The branch that closes a round goes back for another one. -/
  | again {left : Nat} {trace : Trace} : 1 ≤ left ->
      Moves ⟨10, left + 1, false⟩ trace ⟨3, left, false⟩ (trace.visit 10)

/-- The number of instructions that lie ahead of a point at most. -/
def Point.ahead (point : Point) : Nat :=
  8 * point.left + 4 - point.pc

/-- Every move leaves less ahead. -/
theorem Moves.ahead_lt {point next : Point} {trace later : Trace}
    (moves : Moves point trace next later) (positive : 1 ≤ point.left) :
    next.ahead < point.ahead := by
  cases moves <;> simp only [Point.ahead] at positive ⊢ <;> omega

/-- The state of an exploration at a point. -/
inductive StandsAt (strategy : Strategy) : Point -> Progress -> Prop
  | start {processor : Processor} {thread : Thread} {trace : Trace} :
      ground.Represents strategy thread.machine processor ->
      StandsAt strategy ⟨0, 8, false⟩ (.alone (.running 0) thread trace)
  /-- One thread, in front of the round or in it. -/
  | lone (pc left : Nat) {thread : Thread} {trace : Trace} :
      1 ≤ pc -> pc ≤ 9 -> 1 ≤ left -> Counts strategy left thread.machine ->
      StandsAt strategy ⟨pc, left, false⟩ (.alone (.running pc) thread trace)
  /-- One thread that adds the second factor, and one that does not. -/
  | abreast (pc left : Nat) {adding waiting : Thread} {trace : Trace} :
      5 ≤ pc -> pc ≤ 6 -> 1 ≤ left -> Counts strategy left adding.machine ->
      Counts strategy left waiting.machine ->
      StandsAt strategy ⟨pc, left, true⟩ (.abreast pc adding 7 waiting trace)
  /-- One thread, at the branch that closes the round. -/
  | closing {left : Nat} {thread : Thread} {trace : Trace} :
      Counts strategy left thread.machine ->
      thread.machine.flag .zero = .literal (decide (left = 0)) ->
      StandsAt strategy ⟨10, left + 1, false⟩ (.alone (.running 10) thread trace)
  | last {thread : Thread} {trace : Trace} :
      StandsAt strategy ⟨11, 1, false⟩ (.alone (.running 11) thread trace)
  | done {thread : Thread} {trace : Trace} :
      StandsAt strategy ⟨12, 1, false⟩ (.alone .halted thread trace)

/-- A state to which an exploration can go on from a point. -/
def Continues (strategy : Strategy) (point : Point) (trace : Trace) (next : Progress) : Prop :=
  ∃ reached, Moves point trace reached next.trace ∧ StandsAt strategy reached next

namespace StandsAt

variable {strategy : Strategy} {point : Point} {pc left : Nat} {progress : Progress}
  {thread : Thread} {trace : Trace} {rest : Table Thread} {locate : Word -> UInt32}
  {instruction : Instruction} {program : Program} {factor1 factor2 low : Word}

theorem left_pos (stands : StandsAt strategy point progress) : 1 ≤ point.left := by
  cases stands with
  | lone pc left atLeast atMost positive => exact positive
  | abreast pc left atLeast atMost positive => exact positive
  | _ => simp

theorem halted_of_drained (stands : StandsAt strategy point progress)
    (drained : progress.pending.popFirst? = none) :
    point = ⟨12, 1, false⟩ ∧ ∃ thread trace, progress = .alone .halted thread trace := by
  cases stands with
  | abreast pc left atLeast atMost =>
      rw [Progress.popFirst?_abreast (by omega)] at drained
      cases drained
  | done => exact ⟨rfl, _, _, rfl⟩
  | _ => cases drained

theorem bounds_of_pop (stands : StandsAt strategy point progress)
    (popped : progress.pending.popFirst? = some ((pc, thread), rest)) :
    0 < point.ahead ∧ pc ≤ 11 := by
  cases stands with
  | abreast pc left atLeast atMost =>
      rw [Progress.popFirst?_abreast (by omega)] at popped
      cases popped
      simp only [Point.ahead]
      omega
  | done => cases popped
  | _ =>
      cases popped
      simp only [Point.ahead]
      omega

/-! ## Steps -/

theorem step_load {processor : Processor}
    (represents : ground.Represents strategy thread.machine processor)
    (located : ground.LocatesOperand (.load .x 8) locate) :
    Succeeds ((Progress.idle trace).step 0 thread (.load .x 8))
      (Continues strategy ⟨0, 8, false⟩ trace) := by
  apply (Counts.load represents located).bind
  rintro ⟨machine, flow⟩ ⟨counts, rfl⟩
  apply Succeeds.pure
  exact ⟨_, .next (by decide) (by decide), .lone 1 8 (by decide) (by decide) (by decide) counts⟩

theorem step_plain (counts : Counts strategy left thread.machine)
    (located : ground.LocatesOperand instruction locate)
    (plain : instruction.isPlain = true) (kept : instruction.sets .x = false)
    {property : Progress -> Prop}
    (scheduled : ∀ machine, Counts strategy left machine ->
      Succeeds (Progress.schedule { progress with trace := progress.trace.visit pc } (pc + 1)
        { thread with machine }) property) :
    Succeeds (progress.step pc thread instruction) property := by
  apply (counts.execute located plain kept).bind
  rintro ⟨machine, flow⟩ ⟨counts, rfl⟩
  exact scheduled machine counts

theorem step_lone (counts : Counts strategy left thread.machine)
    (located : ground.LocatesOperand instruction locate)
    (plain : instruction.isPlain = true) (kept : instruction.sets .x = false)
    (atMost : pc < 9) (positive : 1 ≤ left) :
    Succeeds ((Progress.idle trace).step pc thread instruction)
      (Continues strategy ⟨pc, left, false⟩ trace) := by
  apply step_plain counts located plain kept
  intro machine counts
  apply Succeeds.pure
  exact ⟨_, .next (by omega) (by omega), .lone (pc + 1) left (Nat.succ_pos pc) atMost positive counts⟩

/-- The branch within a round skips the addition, goes on with it, or does both. -/
theorem step_fork (counts : Counts strategy left thread.machine) (positive : 1 ≤ left) :
    Succeeds ((Progress.idle trace).step 4 thread (.branchIfClear .carry 7))
      (Continues strategy ⟨4, left, false⟩ trace) := by
  apply (Instruction.execute_branch .carry 7 thread.machine).bind
  rintro ⟨machine, flow⟩ ⟨condition, same, _⟩
  cases same
  change Succeeds ((Progress.idle (trace.visit 4)).follow 4 thread condition 7) _
  cases known : condition.known with
  | some taken =>
      rw [Progress.follow_of_known known, Progress.schedule_idle]
      apply Succeeds.pure
      cases taken with
      | true => exact ⟨_, .skip, .lone 7 left (by decide) (by decide) positive counts⟩
      | false =>
          exact ⟨_, .next (by decide) (by omega), .lone 5 left (by decide) (by decide) positive counts⟩
  | none =>
      apply (Progress.follow_idle_of_unknown known (by decide) thread _).mono
      rintro next ⟨taken, notTaken, rfl⟩
      exact ⟨_, .fork, .abreast 5 left (by decide) (by decide) positive counts counts⟩

/-- Both threads of a round meet behind the addition. -/
theorem step_abreast {adding waiting : Thread} (atLeast : 5 ≤ pc) (atMost : pc ≤ 6)
    (positive : 1 ≤ left) (counts : Counts strategy left adding.machine)
    (waitingCounts : Counts strategy left waiting.machine)
    (located : ground.LocatesOperand instruction locate)
    (plain : instruction.isPlain = true) (kept : instruction.sets .x = false) :
    Succeeds ((Progress.alone (.running 7) waiting trace).step pc adding instruction)
      (Continues strategy ⟨pc, left, true⟩ trace) := by
  apply step_plain counts located plain kept
  intro machine counts
  change Succeeds ((Progress.alone (.running 7) waiting (trace.visit pc)).schedule (pc + 1)
    { adding with machine }) _
  by_cases first : pc = 5
  · subst first
    rw [Progress.schedule_alone (by decide)]
    apply Succeeds.pure
    exact ⟨_, .add, .abreast 6 left (by decide) (by decide) positive counts waitingCounts⟩
  · have second : pc = 6 := by omega
    subst second
    apply (Progress.schedule_join (waitingCounts.join counts) 7 _).mono
    rintro next ⟨joined, rfl, joinedCounts⟩
    exact ⟨_, .join, .lone 7 left (by decide) (by decide) positive joinedCounts⟩

theorem step_decrement (counts : Counts strategy (left + 1) thread.machine)
    (located : ground.LocatesOperand (.decrement .x) locate) :
    Succeeds ((Progress.idle trace).step 9 thread (.decrement .x))
      (Continues strategy ⟨9, left + 1, false⟩ trace) := by
  apply (counts.decrement located).bind
  rintro ⟨machine, flow⟩ ⟨counts, zero, rfl⟩
  exact .pure ⟨_, .next (by decide) (by omega), .closing counts zero⟩

/-- The branch that closes a round is decided by the counting register. -/
theorem step_closing (counts : Counts strategy left thread.machine)
    (zero : thread.machine.flag .zero = .literal (decide (left = 0))) :
    Succeeds ((Progress.idle trace).step 10 thread (.branchIfClear .zero 3))
      (Continues strategy ⟨10, left + 1, false⟩ trace) := by
  apply (Instruction.execute_branch .zero 3 thread.machine).bind
  rintro ⟨machine, flow⟩ ⟨condition, same, decided⟩
  cases same
  have known : condition.known = some (!decide (left = 0)) := by
    rw [decided _ zero]
    rfl
  change Succeeds ((Progress.idle (trace.visit 10)).follow 10 thread condition 3) _
  rw [Progress.follow_of_known known, Progress.schedule_idle]
  apply Succeeds.pure
  by_cases finished : left = 0
  · subst finished
    exact ⟨_, .next (by decide) (fun _ => rfl), .last⟩
  · have more : 1 ≤ left := by omega
    rw [decide_eq_false finished]
    exact ⟨_, .again more, .lone 3 left (by decide) (by decide) more counts⟩

theorem step_halt : Succeeds ((Progress.idle trace).step 11 thread .halt)
    (Continues strategy ⟨11, 1, false⟩ trace) := by
  apply (Progress.retire_idle 11 thread (trace.visit 11)).mono
  rintro next rfl
  exact ⟨_, .next (by decide) (by decide), .done⟩

/-- All instructions from the second to the last but three are plain and leave the counting
register alone, apart from the branch. -/
theorem plain_of_getElem? (found : (instructions factor1 factor2 low)[pc]? = some instruction)
    (inside : pc ∈ [1, 2, 3, 5, 6, 7, 8]) :
    instruction.isPlain = true ∧ instruction.sets .x = false := by
  simp only [List.mem_cons, List.not_mem_nil, or_false] at inside
  rcases inside with rfl | rfl | rfl | rfl | rfl | rfl | rfl <;> cases found <;> exact ⟨rfl, rfl⟩

/-- Every step is a move to another point. -/
theorem step (code : program.instructions = instructions factor1 factor2 low)
    (located : ground.Locates program locate) (stands : StandsAt strategy point progress)
    (popped : progress.pending.popFirst? = some ((pc, thread), rest))
    (found : program.get? pc = some instruction) :
    Succeeds (Progress.step { progress with pending := rest } pc thread instruction)
      (Continues strategy point progress.trace) := by
  have addresses := located instruction (List.mem_of_getElem? found)
  rw [get?_eq code] at found
  cases stands with
  | start represents =>
      cases popped
      cases found
      exact step_load represents addresses
  | lone pc left atLeast atMost positive counts =>
      cases popped
      by_cases branch : pc = 4
      · subst branch
        cases found
        exact step_fork counts positive
      · by_cases counting : pc = 9
        · subst counting
          cases found
          cases left with
          | zero => cases positive
          | succ left => exact step_decrement counts addresses
        · have inside : pc ∈ [1, 2, 3, 5, 6, 7, 8] := by
            simp only [List.mem_cons, List.not_mem_nil, or_false]
            omega
          have plain := plain_of_getElem? found inside
          exact step_lone counts addresses plain.1 plain.2 (by omega) positive
  | abreast pc left atLeast atMost positive counts waitingCounts =>
      rw [Progress.popFirst?_abreast (by omega)] at popped
      cases popped
      have inside : pc ∈ [1, 2, 3, 5, 6, 7, 8] := by
        simp only [List.mem_cons, List.not_mem_nil, or_false]
        omega
      have plain := plain_of_getElem? found inside
      exact step_abreast atLeast atMost positive counts waitingCounts addresses plain.1 plain.2
  | closing counts zero =>
      cases popped
      cases found
      exact step_closing counts zero
  | last =>
      cases popped
      cases found
      exact step_halt
  | done => cases popped

end StandsAt

/-! ## Runs -/

/-- The multiplier runs to a halt within 68 instructions. -/
theorem run_completes {program : Program} {factor1 factor2 low : Word} {locate : Word -> UInt32}
    {strategy : Strategy} {machine : Machine} {processor : Processor} {limit : Nat}
    (code : program.instructions = instructions factor1 factor2 low)
    (located : ground.Locates program locate)
    (represents : ground.Represents strategy machine processor) (enough : 68 ≤ limit) :
    Completes (program.run machine limit) fun _ => True := by
  apply Program.run_ends
  apply Program.explore_ends fun remaining progress =>
    ∃ point : Point, point.ahead ≤ remaining ∧ StandsAt strategy point progress
  · rintro remaining progress ⟨point, _, stands⟩ drained
    rcases stands.halted_of_drained drained with ⟨_, thread, trace, rfl⟩
    exact ⟨_, rfl, trivial⟩
  · rintro progress pc thread rest ⟨point, nothing, stands⟩ popped
    have positive := (stands.bounds_of_pop popped).1
    omega
  · rintro remaining progress pc thread rest ⟨point, _, stands⟩ popped outside
    have inside := (stands.bounds_of_pop popped).2
    rw [get?_eq code, List.getElem?_eq_none_iff] at outside
    change 12 ≤ pc at outside
    omega
  · rintro remaining progress pc thread rest instruction ⟨point, within, stands⟩ popped found
    apply (stands.step code located popped found).mono
    rintro next ⟨reached, moves, nextStands⟩
    have less := moves.ahead_lt stands.left_pos
    exact ⟨reached, by omega, nextStands⟩
  · exact ⟨⟨0, 8, false⟩, enough, .start represents⟩

end Multiplier

/-- A verification of inputs of the right widths has a result unless its limit is too low. -/
theorem Verification.run_completes (settings : Settings) {inputs : Inputs}
    (wellFormed : inputs.WellFormed) (enough : 68 ≤ settings.stepLimit) :
    Completes (run settings inputs) fun _ => True := by
  have knows := Interpretation.knows_of_valuation wellFormed fun _ => false
  rcases Multiplier.program_eq_ok inputs.factor1Address inputs.factor2Address inputs.lowAddress
    with ⟨program, assembled, code⟩
  unfold Verification.run
  rw [assembled]
  apply Completes.report_bind
  apply Completes.lift_bind (knows.initialMachine settings)
  intro machine represents
  have completes := Multiplier.run_completes code (knows.locates code) represents enough
  have executed := completes.and_yields (represents.run (knows.locates code) settings.stepLimit)
  apply (executed.adapt Error.execution).bind
  rintro execution ⟨_, visited, final, _, _, represented⟩
  apply Completes.lift_bind (represented.read (knows .lowAddress).toUInt32)
  intro low _
  exact .pure trivial

end SymbolicMachine
