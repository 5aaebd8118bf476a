import Mathlib.Data.List.Nodup
import SymbolicMachine.Program.Assembly
import SymbolicMachine.Proofs.Literals
import SymbolicMachine.Proofs.RunOutcomes

namespace SymbolicMachine

/-!
# Counting down

The smallest loop counts a register down until it is zero.  How often a run goes round it is a
matter of what the register is made of.

A literal stays a literal, and so does the flag that closes the loop.  The run goes round as
often as the number says, or 256 times if it is zero, because the register wraps around then.

A register of distinct variables may have any value at the start, so after any number of rounds
there is a valuation under which it is zero and one under which it is not.  Nothing that means
both can be simplified to a literal.  So every round leaves a thread behind that has come to the
halt and sends another one back, even after 256 rounds, when no valuation is left under which a
thread goes round once more.  The run comes to no end, whatever its limit is.
-/

open Interpretation (ofValuation ofLiterals)

/-! ## Bits and words that are open -/

/-- A bit that means both values is no literal. -/
theorem Interpretation.Reads.known_eq_none {I J : Interpretation} {bit : Bit}
    (holds : I.Reads bit true) (fails : J.Reads bit false) : bit.known = none := by
  cases known : bit.known with
  | none => rfl
  | some value => exact absurd ((holds.eq_of_known known).trans (fails.eq_of_known known).symm) nofun

/-- A word of distinct variables has any number under some valuation. -/
theorem Word.exists_value_eq {ids : List Nat} (distinct : ids.Nodup) {word : Word}
    (inputs : word.bits = ids.map .var) {number : Nat} (small : number < 2 ^ word.width) :
    ∃ valuation, word.value valuation = number := by
  refine ⟨fun id => number.testBit (ids.idxOf id), ?_⟩
  have digits : word.bits.map (Bit.eval fun id => number.testBit (ids.idxOf id)) =
      (List.range word.width).map number.testBit := by
    rw [width, inputs]
    apply List.ext_getElem
    · simp
    · intro index inside _
      simp [Bit.eval, distinct.idxOf_getElem]
  rw [value, digits, ofBools_testBit, Nat.mod_eq_of_lt small]

namespace Countdown

/-! ## The program -/

/-- Count down, and start again unless zero has been reached. -/
def source : List Assembly.Item :=
  [.label "loop",
   .instruction (.decrement .x),
   .branchIfClear .zero "loop",
   .instruction .halt]

def instructions : List Instruction :=
  [.decrement .x, .branchIfClear .zero 0, .halt]

variable {program : Program} {machine : Machine} {strategy : Strategy} {trace : Trace}
  {left total pc : Nat} {thread : Thread} {rest : Table Thread} {progress : Progress}
  {instruction : Instruction}

theorem instructions_of_assemble (assembled : Assembly.assemble source = .ok program) :
    program.instructions = instructions := by
  have expected : ∃ expected, Assembly.assemble source = .ok expected ∧
      expected.instructions = instructions := ⟨_, rfl, rfl⟩
  rcases expected with ⟨expected, same, code⟩
  rw [assembled] at same
  cases same
  exact code

theorem get?_eq (code : program.instructions = instructions) (pc : Nat) :
    program.get? pc = instructions[pc]? := by
  rw [Program.get?, code]

/-! ## A known register -/

/-- How often the loop is gone round for a number in the register. -/
def rounds (number : Nat) : Nat :=
  if 0 < number then number else 256

/-- What a trace counts at the three instructions, where no branch has been undecided. -/
structure Tallies (trace : Trace) (decrements branches halts : Nat) : Prop where
  decrements : trace.count 0 = decrements
  branches : trace.count 1 = branches
  halts : trace.count 2 = halts
  forks : trace.forks = 0

theorem Tallies.visit {decrements branches halts : Nat}
    (tallies : Tallies trace decrements branches halts) (pc : Nat) :
    Tallies (trace.visit pc) (decrements + if 0 = pc then 1 else 0)
      (branches + if 1 = pc then 1 else 0) (halts + if 2 = pc then 1 else 0) where
  decrements := by rw [Trace.count_visit, tallies.decrements]
  branches := by rw [Trace.count_visit, tallies.branches]
  halts := by rw [Trace.count_visit, tallies.halts]
  forks := tallies.forks

/-- The machine in which counting a machine down ends. -/
def settled (machine : Machine) : Machine :=
  { machine with x := .constant 0 wordBits, zero := .one }

/-- The states of a run with a known register, by the number of instructions that lie ahead. -/
inductive Descends (machine : Machine) (total : Nat) : Nat -> Progress -> Prop
  | entering {left : Nat} {flag : Bit} {trace : Trace} : left < total ->
      Tallies trace (total - (left + 1)) (total - (left + 1)) 0 ->
      Descends machine total (2 * left + 3) (.alone (.running 0)
        ⟨.one, { machine with x := .constant (left + 1) wordBits, zero := flag }⟩ trace)
  | closing {left : Nat} {trace : Trace} : left < total ->
      Tallies trace (total - left) (total - (left + 1)) 0 ->
      Descends machine total (2 * left + 2) (.alone (.running 1)
        ⟨.one, { machine with
          x := .constant left wordBits, zero := .literal (decide (left = 0)) }⟩ trace)
  | last {trace : Trace} : Tallies trace total total 0 ->
      Descends machine total 1 (.alone (.running 2) ⟨.one, settled machine⟩ trace)
  | done {trace : Trace} : Tallies trace total total 1 ->
      Descends machine total 0 (.alone .halted ⟨.one, settled machine⟩ trace)

/-- What remains of a literal that is counted down is a literal. -/
theorem decrement_constant (counter : machine.x = .constant (left + 1) wordBits)
    (small : left < 256) :
    Succeeds ((Instruction.decrement .x).execute machine) fun result =>
      result = ({ machine with
        x := .constant left wordBits, zero := .literal (decide (left = 0)) }, .next) := by
  have denotes : ofLiterals.Denotes wordBits machine.x ((left + 1) % 256) := by
    rw [counter]
    exact Interpretation.denotes_constant (left + 1) wordBits
  have less : ((left + 1) % 256 + 255) % 256 = left := by omega
  apply denotes.decrement.mono
  rintro result ⟨difference, zero, rfl, differenceDenotes, zeroReads⟩
  rw [less] at differenceDenotes zeroReads
  rw [differenceDenotes.eq_constant, Bit.known_eq_some_iff.mp zeroReads]

namespace Descends

variable {ahead : Nat}

theorem halted_of_drained (descends : Descends machine total ahead progress)
    (drained : progress.pending.popFirst? = none) :
    ahead = 0 ∧ ∃ trace, Tallies trace total total 1 ∧
      progress = .alone .halted ⟨.one, settled machine⟩ trace := by
  cases descends with
  | done tallies => exact ⟨rfl, _, tallies, rfl⟩
  | _ => cases drained

theorem bounds_of_pop (descends : Descends machine total ahead progress)
    (popped : progress.pending.popFirst? = some ((pc, thread), rest)) : 0 < ahead ∧ pc ≤ 2 := by
  cases descends with
  | done => cases popped
  | _ =>
      cases popped
      omega

theorem step_decrement (inside : left < total) (small : total ≤ 256) {flag : Bit}
    (tallies : Tallies trace (total - (left + 1)) (total - (left + 1)) 0) :
    Succeeds ((Progress.idle trace).step 0
        ⟨.one, { machine with x := .constant (left + 1) wordBits, zero := flag }⟩ (.decrement .x))
      (Descends machine total (2 * left + 2)) := by
  apply (decrement_constant rfl (by omega)).bind
  rintro _ rfl
  have visits := tallies.visit 0
  have once : total - (left + 1) + 1 = total - left := by omega
  rw [if_pos rfl, once] at visits
  exact .pure (.closing inside visits)

theorem step_branch (inside : left < total)
    (tallies : Tallies trace (total - left) (total - (left + 1)) 0) :
    Succeeds ((Progress.idle trace).step 1
        ⟨.one, { machine with
          x := .constant left wordBits, zero := .literal (decide (left = 0)) }⟩
        (.branchIfClear .zero 0))
      (Descends machine total (2 * left + 1)) := by
  apply (Instruction.execute_branch .zero 0 _).bind
  rintro _ ⟨condition, rfl, decided⟩
  have known : condition.known = some (!decide (left = 0)) := by
    rw [decided _ rfl]
    rfl
  change Succeeds ((Progress.idle (trace.visit 1)).follow 1 _ condition 0) _
  rw [Progress.follow_of_known known, Progress.schedule_idle]
  apply Succeeds.pure
  have visits := tallies.visit 1
  have once : total - (left + 1) + 1 = total - left := by omega
  rw [if_pos rfl, once] at visits
  cases left with
  | zero => exact .last visits
  | succ left => exact .entering (Nat.lt_of_succ_lt inside) visits

theorem step_halt (tallies : Tallies trace total total 0) :
    Succeeds ((Progress.idle trace).step 2 ⟨.one, settled machine⟩ .halt)
      (Descends machine total 0) := by
  apply (Progress.retire_idle 2 _ (trace.visit 2)).mono
  rintro _ rfl
  exact .done (tallies.visit 2)

/-- Every step leaves one instruction less ahead. -/
theorem step (code : program.instructions = instructions) (small : total ≤ 256)
    (descends : Descends machine total (ahead + 1) progress)
    (popped : progress.pending.popFirst? = some ((pc, thread), rest))
    (found : program.get? pc = some instruction) :
    Succeeds (Progress.step { progress with pending := rest } pc thread instruction)
      (Descends machine total ahead) := by
  rw [get?_eq code] at found
  cases descends with
  | entering inside tallies =>
      cases popped
      cases found
      exact step_decrement inside small tallies
  | closing inside tallies =>
      cases popped
      cases found
      exact step_branch inside tallies
  | last tallies =>
      cases popped
      cases found
      exact step_halt tallies

end Descends

/-! ## A register of variables -/

/-- The threads that have come to the halt, joined into one. -/
def past (waiting : Option Thread) (trace : Trace) : Progress :=
  match waiting with
  | none => .idle trace
  | some thread => .alone (.running 2) thread trace

/-- One thread in the loop, and those that have come to the halt. -/
def within (pc : Nat) (thread : Thread) (waiting : Option Thread) (trace : Trace) : Progress :=
  { past waiting trace with pending := (past waiting trace).pending.insert pc thread }

variable {waiting : Option Thread} {start : Word} {shift : Nat}

theorem past_recorded (waiting : Option Thread) (trace : Trace) (record : Trace -> Trace) :
    { past waiting trace with trace := record (past waiting trace).trace } =
      past waiting (record trace) := by
  cases waiting <;> rfl

theorem popFirst?_within (inLoop : pc < 2) (thread : Thread) (waiting : Option Thread)
    (trace : Trace) :
    (within pc thread waiting trace).pending.popFirst? =
      some ((pc, thread), (past waiting trace).pending) := by
  cases waiting with
  | none => rfl
  | some other => exact Table.popFirst?_insert_insert inLoop thread other

theorem schedule_past (inLoop : pc < 2) (thread : Thread) (waiting : Option Thread)
    (trace : Trace) :
    (past waiting trace).schedule pc thread = pure (within pc thread waiting trace) := by
  apply Progress.schedule_of_vacant
  cases waiting with
  | none => rfl
  | some other =>
      have different : pc ≠ 2 := Nat.ne_of_lt inLoop
      rw [past, Progress.alone, Table.get?_insert, if_neg different, Table.get?_empty]

theorem join_shaped {first second : Thread} (firstShaped : first.machine.Shaped strategy)
    (secondShaped : second.machine.Shaped strategy) :
    Succeeds (first.join second) fun joined => joined.machine.Shaped strategy := by
  apply (Machine.Shaped.merge first.predicate firstShaped secondShaped).bind
  intro machine shaped
  apply (Succeeds.lift (.any _)).bind
  intro predicate _
  exact .pure shaped

/-- A thread that leaves the loop joins those that have left it before. -/
theorem schedule_within (leaving : Thread) (shaped : leaving.machine.Shaped strategy)
    (waitingShaped : ∀ other ∈ waiting, other.machine.Shaped strategy) (thread : Thread)
    (trace : Trace) :
    Succeeds ((within 0 thread waiting trace).schedule 2 leaving) fun next =>
      ∃ joined later, next = within 0 thread (some joined) later ∧
        joined.machine.Shaped strategy := by
  cases waiting with
  | none => exact .pure ⟨leaving, trace, rfl, shaped⟩
  | some other =>
      apply Succeeds.report_bind
      apply (join_shaped (waitingShaped other rfl) shaped).bind
      intro joined joinedShaped
      exact .pure ⟨joined, trace.merge, rfl, joinedShaped⟩

/-- A branch that is not decided leaves a thread in the loop and one that waits. -/
theorem follow_past {condition : Bit} (unknown : condition.known = none)
    (shaped : thread.machine.Shaped strategy)
    (waitingShaped : ∀ other ∈ waiting, other.machine.Shaped strategy) (trace : Trace) :
    Succeeds ((past waiting trace).follow 1 thread condition 0) fun next =>
      ∃ taken joined later,
        next = within 0 { thread with predicate := taken } (some joined) later ∧
        joined.machine.Shaped strategy := by
  apply Progress.follow_of_unknown unknown
  intro taken notTaken
  rw [past_recorded waiting trace Trace.fork, schedule_past Nat.zero_lt_two, pure_bind]
  apply (schedule_within { thread with predicate := notTaken } shaped waitingShaped _ _).mono
  rintro next ⟨joined, later, rfl, joinedShaped⟩
  exact ⟨taken, joined, later, rfl, joinedShaped⟩

/-- A well-formed machine whose register is what it was at the start plus a shift, modulo 256.
Counting down adds 255 to the shift. -/
structure Falls (strategy : Strategy) (start : Word) (shift : Nat) (machine : Machine) : Prop where
  shaped : machine.Shaped strategy
  counter : ∀ valuation, (ofValuation valuation).Denotes wordBits machine.x
    ((start.value valuation + shift) % 256)

theorem Falls.decrement (falls : Falls strategy start shift machine) :
    Succeeds ((Instruction.decrement .x).execute machine) fun result =>
      result.2 = .next ∧ Falls strategy start (shift + 255) result.1 ∧
      ∀ valuation, (ofValuation valuation).Reads result.1.zero
        (decide ((start.value valuation + (shift + 255)) % 256 = 0)) := by
  have addressed : (Instruction.decrement .x).Addressed := nofun
  have counted := Succeeds.all fun valuation => (falls.counter valuation).decrement
  apply ((falls.shaped.execute addressed).and_returns counted.returns).mono
  rintro ⟨changed, flow⟩ ⟨shaped, counts⟩
  have once : ∀ valuation, ((start.value valuation + shift) % 256 + 255) % 256 =
      (start.value valuation + (shift + 255)) % 256 := by
    intro valuation
    omega
  have next : flow = .next := by
    rcases counts fun _ => false with ⟨difference, zero, same, _⟩
    cases same
    rfl
  refine ⟨next, ⟨shaped, ?_⟩, ?_⟩
  · intro valuation
    rcases counts valuation with ⟨difference, zero, same, denotes, _⟩
    cases same
    rwa [once] at denotes
  · intro valuation
    rcases counts valuation with ⟨difference, zero, same, _, reads⟩
    cases same
    rwa [once] at reads

/-- The states of a run with a register of variables. -/
inductive Circles (strategy : Strategy) (start : Word) : Progress -> Prop
  | entering {shift : Nat} (thread : Thread) {waiting : Option Thread} {trace : Trace} :
      Falls strategy start shift thread.machine ->
      (∀ other ∈ waiting, other.machine.Shaped strategy) ->
      Circles strategy start (within 0 thread waiting trace)
  | closing {shift : Nat} (thread : Thread) {waiting : Option Thread} {trace : Trace} :
      Falls strategy start shift thread.machine ->
      (∀ valuation, (ofValuation valuation).Reads thread.machine.zero
        (decide ((start.value valuation + shift) % 256 = 0))) ->
      (∀ other ∈ waiting, other.machine.Shaped strategy) ->
      Circles strategy start (within 1 thread waiting trace)

namespace Circles

theorem exists_pop (circles : Circles strategy start progress) :
    ∃ pc thread rest, progress.pending.popFirst? = some ((pc, thread), rest) ∧ pc < 2 := by
  cases circles with
  | entering => exact ⟨_, _, _, popFirst?_within Nat.zero_lt_two _ _ _, Nat.zero_lt_two⟩
  | closing => exact ⟨_, _, _, popFirst?_within Nat.one_lt_two _ _ _, Nat.one_lt_two⟩

theorem step_decrement (falls : Falls strategy start shift thread.machine)
    (waitingShaped : ∀ other ∈ waiting, other.machine.Shaped strategy) :
    Succeeds ((past waiting trace).step 0 thread (.decrement .x)) (Circles strategy start) := by
  apply falls.decrement.bind
  rintro ⟨changed, flow⟩ ⟨rfl, changedFalls, zeroReads⟩
  change Succeeds (Progress.schedule
    { past waiting trace with trace := (past waiting trace).trace.visit 0 } 1
    { thread with machine := changed }) _
  rw [past_recorded waiting trace fun trace => trace.visit 0, schedule_past Nat.one_lt_two]
  exact .pure (.closing { thread with machine := changed } changedFalls zeroReads waitingShaped)

/-- If the register may have any value, the branch is not decided. -/
theorem step_branch (every : ∀ number < 256, ∃ valuation, start.value valuation = number)
    (falls : Falls strategy start shift thread.machine)
    (zeroReads : ∀ valuation, (ofValuation valuation).Reads thread.machine.zero
      (decide ((start.value valuation + shift) % 256 = 0)))
    (waitingShaped : ∀ other ∈ waiting, other.machine.Shaped strategy) :
    Succeeds ((past waiting trace).step 1 thread (.branchIfClear .zero 0))
      (Circles strategy start) := by
  have unknown : Gives thread.machine.zero.not fun condition => condition.known = none := by
    intro session
    rcases every ((256 - shift % 256) % 256) (Nat.mod_lt _ (by decide)) with ⟨ending, endingValue⟩
    rcases every ((257 - shift % 256) % 256) (Nat.mod_lt _ (by decide)) with ⟨going, goingValue⟩
    have ends : decide ((start.value ending + shift) % 256 = 0) = true := by
      rw [decide_eq_true_iff]
      omega
    have goes : decide ((start.value going + shift) % 256 = 0) = false := by
      rw [decide_eq_false_iff_not]
      omega
    have taken := (zeroReads going).not session
    have notTaken := (zeroReads ending).not session
    rw [goes] at taken
    rw [ends] at notTaken
    exact taken.known_eq_none notTaken
  have executed : Succeeds ((Instruction.branchIfClear .zero 0).execute thread.machine)
      fun result => ∃ condition, result = (thread.machine, .branch condition 0) ∧
        condition.known = none :=
    (Succeeds.lift unknown).bind fun condition unknown => .pure ⟨condition, rfl, unknown⟩
  apply executed.bind
  rintro _ ⟨condition, rfl, unknown⟩
  dsimp only
  rw [past_recorded waiting trace fun trace => trace.visit 1]
  apply (follow_past unknown falls.shaped waitingShaped _).mono
  rintro next ⟨taken, joined, later, rfl, joinedShaped⟩
  apply Circles.entering { thread with predicate := taken } falls
  intro other same
  cases same
  exact joinedShaped

/-- Every step stays in the loop. -/
theorem step (code : program.instructions = instructions)
    (every : ∀ number < 256, ∃ valuation, start.value valuation = number)
    (circles : Circles strategy start progress)
    (popped : progress.pending.popFirst? = some ((pc, thread), rest))
    (found : program.get? pc = some instruction) :
    Succeeds (Progress.step { progress with pending := rest } pc thread instruction)
      (Circles strategy start) := by
  rw [get?_eq code] at found
  cases circles with
  | entering thread falls waitingShaped =>
      rw [popFirst?_within Nat.zero_lt_two] at popped
      cases popped
      cases found
      exact step_decrement falls waitingShaped
  | closing thread falls zeroReads waitingShaped =>
      rw [popFirst?_within Nat.one_lt_two] at popped
      cases popped
      cases found
      exact step_branch every falls zeroReads waitingShaped

end Circles

/-! ## Runs -/

/-- With a literal the run ends after two instructions for each round and the halt, unless the
limit is lower. -/
theorem run_constant (code : program.instructions = instructions)
    (counter : machine.x = .constant total wordBits) (positive : 0 < total) (small : total ≤ 256)
    (limit : Nat) :
    Ends (program.run machine limit) fun outcome =>
      if 2 * total + 1 ≤ limit then ∃ execution, outcome = .ok execution ∧
        Tallies execution.trace total total 1 ∧ execution.machine = settled machine
      else outcome = .error (.stepLimitExceeded limit) := by
  apply Program.run_ends
  -- What has been executed and what lies ahead are the instructions of the whole run.
  apply Program.explore_ends fun remaining progress => ∃ ahead,
    Descends machine total ahead progress ∧ remaining + (2 * total + 1) = limit + ahead
  · rintro remaining progress ⟨ahead, descends, executed⟩ drained
    rcases descends.halted_of_drained drained with ⟨rfl, trace, tallies, rfl⟩
    rw [if_pos (by omega)]
    exact ⟨_, rfl, tallies, rfl⟩
  · rintro progress pc thread rest ⟨ahead, descends, executed⟩ popped
    have positive := (descends.bounds_of_pop popped).1
    rw [if_neg (by omega)]
    rfl
  · rintro remaining progress pc thread rest ⟨ahead, descends, executed⟩ popped outside
    have inside := (descends.bounds_of_pop popped).2
    rw [get?_eq code, List.getElem?_eq_none_iff] at outside
    change 3 ≤ pc at outside
    omega
  · rintro remaining progress pc thread rest instruction ⟨ahead, descends, executed⟩ popped found
    have positive := (descends.bounds_of_pop popped).1
    cases ahead with
    | zero => cases positive
    | succ ahead =>
        apply (descends.step code small popped found).mono
        intro next nextDescends
        exact ⟨ahead, nextDescends, by omega⟩
  · cases total with
    | zero => cases positive
    | succ left =>
        have same : machine =
            { machine with x := .constant (left + 1) wordBits, zero := machine.zero } := by
          rw [← counter]
        have tallies : Tallies {} (left + 1 - (left + 1)) (left + 1 - (left + 1)) 0 := by
          rw [Nat.sub_self]
          exact ⟨rfl, rfl, rfl, rfl⟩
        refine ⟨2 * left + 3, ?_, by omega⟩
        rw [Progress.start, same]
        exact .entering (Nat.lt_succ_self left) tallies

/-- With distinct variables the run is abandoned. -/
theorem run_variables (code : program.instructions = instructions)
    (wellFormed : machine.WellFormed) {ids : List Nat} (distinct : ids.Nodup)
    (inputs : machine.x.bits = ids.map .var) (limit : Nat) :
    Ends (program.run machine limit) fun outcome =>
      outcome = .error (.stepLimitExceeded limit) := by
  have width : machine.x.width = wordBits := wellFormed.register .x
  have every : ∀ number < 256, ∃ valuation, machine.x.value valuation = number := by
    intro number small
    apply Word.exists_value_eq distinct inputs
    rw [width]
    exact small
  have falls : Falls machine.memory.strategy machine.x 0 machine := by
    refine ⟨⟨wellFormed, rfl⟩, ?_⟩
    intro valuation
    have denotes := Interpretation.denotes_value valuation machine.x
    rw [width] at denotes
    have small : machine.x.value valuation < 256 := denotes.lt
    rw [Nat.add_zero, Nat.mod_eq_of_lt small]
    exact denotes
  apply Program.run_ends
  apply Program.explore_ends fun _ progress =>
    Circles machine.memory.strategy machine.x progress
  · intro remaining progress circles drained
    rcases circles.exists_pop with ⟨pc, thread, rest, popped, _⟩
    rw [drained] at popped
    cases popped
  · intro progress pc thread rest _ _
    rfl
  · intro remaining progress pc thread rest circles popped outside
    rcases circles.exists_pop with ⟨_, _, _, poppedAgain, inLoop⟩
    rw [popped] at poppedAgain
    cases poppedAgain
    rw [get?_eq code, List.getElem?_eq_none_iff] at outside
    change 3 ≤ pc at outside
    omega
  · intro remaining progress pc thread rest instruction circles popped found
    exact circles.step code every popped found
  · change Circles machine.memory.strategy machine.x (within 0 ⟨.one, machine⟩ none {})
    exact .entering ⟨.one, machine⟩ falls nofun

/-- Counting down a register of distinct variables exceeds every limit, whatever else is in a
well-formed machine.  Counting down a literal goes as many rounds as the number says, or 256 if
it is zero, and has a result just if the limit allows for two instructions a round and one more.
The result is the machine with nothing changed but the register, which is zero, and the flag
that says so. -/
theorem run_by_register (assembled : Assembly.assemble source = .ok program)
    (wellFormed : machine.WellFormed) (limit : Nat) :
    (∀ ids : List Nat, ids.Nodup -> machine.x.bits = ids.map .var ->
      Ends (program.run machine limit) fun outcome =>
        outcome = .error (.stepLimitExceeded limit)) ∧
    ∀ number, machine.x.known = some number ->
      Ends (program.run machine limit) fun outcome =>
        if 2 * rounds number + 1 ≤ limit then ∃ execution, outcome = .ok execution ∧
          execution.trace.count 0 = rounds number ∧ execution.trace.count 1 = rounds number ∧
          execution.trace.count 2 = 1 ∧ execution.trace.forks = 0 ∧
          execution.machine = { machine with x := .constant 0 wordBits, zero := .one }
        else outcome = .error (.stepLimitExceeded limit) := by
  have code := instructions_of_assemble assembled
  constructor
  · intro ids distinct inputs
    exact run_variables code wellFormed distinct inputs limit
  · intro number known
    have width : machine.x.width = wordBits := wellFormed.register .x
    have denotes : ofLiterals.Denotes wordBits machine.x number := by
      rw [← width]
      exact (Interpretation.known_eq_some_iff (by rw [width]; decide)).mp known
    have small : number < 256 := denotes.lt
    have counter : machine.x = .constant (rounds number) wordBits := by
      rw [denotes.eq_constant, rounds]
      split
      · rfl
      · next zero =>
          cases Nat.eq_zero_of_not_pos zero
          rfl
    have positive : 0 < rounds number := by
      unfold rounds
      split <;> omega
    have bounded : rounds number ≤ 256 := by
      unfold rounds
      split <;> omega
    apply (run_constant code counter positive bounded limit).mono
    intro outcome ended
    split
    · next enough =>
        rw [if_pos enough] at ended
        rcases ended with ⟨execution, same, tallies, final⟩
        exact ⟨execution, same, tallies.decrements, tallies.branches, tallies.halts, tallies.forks,
          final⟩
    · next short =>
        rw [if_neg short] at ended
        exact ended

/-- A machine with eight variables in the register, one of them also in the carry flag. -/
def openCounter : Machine :=
  { Machine.openCarry with x := ⟨(List.range 8).map .var⟩ }

theorem openCounter_wellFormed : openCounter.WellFormed := by
  refine ⟨?_, Machine.openCarry_wellFormed.memory⟩
  intro register
  cases register <;> rfl

/-- Eight variables are not counted down within a thousand instructions.  Zero is counted down
by 513, where an open carry flag and a cell in memory stay what they are, but not by 512. -/
theorem run_by_register_examples :
    ∃ program, Assembly.assemble source = .ok program ∧
      (openCounter.WellFormed ∧ (List.range 8).Nodup ∧
        Ends (program.run openCounter 1000) fun outcome =>
          outcome = .error (.stepLimitExceeded 1000)) ∧
      Machine.openCarry.WellFormed ∧ Machine.openCarry.x.known = some 0 ∧
      (Ends (program.run .openCarry 513) fun outcome => ∃ execution, outcome = .ok execution ∧
        execution.trace.count 0 = 256 ∧ execution.trace.count 1 = 256 ∧
        execution.trace.count 2 = 1 ∧ execution.trace.forks = 0 ∧
        execution.machine = { Machine.openCarry with x := .constant 0 8, zero := .one }) ∧
      Ends (program.run .openCarry 512) fun outcome =>
        outcome = .error (.stepLimitExceeded 512) := by
  have assembled : ∃ program, Assembly.assemble source = .ok program := ⟨_, rfl⟩
  rcases assembled with ⟨program, assembled⟩
  have wellFormed := Machine.openCarry_wellFormed
  have known : Machine.openCarry.x.known = some 0 := by decide
  have enough := (run_by_register assembled wellFormed 513).2 0 known
  have short := (run_by_register assembled wellFormed 512).2 0 known
  refine ⟨program, assembled, ⟨openCounter_wellFormed, List.nodup_range, ?_⟩, wellFormed, known,
    enough, short⟩
  exact (run_by_register assembled openCounter_wellFormed 1000).1 _ List.nodup_range rfl

end Countdown
end SymbolicMachine
