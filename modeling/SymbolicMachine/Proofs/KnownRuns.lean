import SymbolicMachine.Proofs.ExecutionSoundness
import SymbolicMachine.Proofs.Literals
import SymbolicMachine.Proofs.FewThreads
import SymbolicMachine.Proofs.ProcessorRuns

namespace SymbolicMachine

/-!
# Exact runs of known machines

A machine all of whose bits are literals shows which processor it stands for.  A program
whose addresses are literals runs on it as on the processor, instruction by instruction.  Every
operation on literals gives literals, so no branch is undecided, the run keeps its one thread,
and the literal truth stays its predicate.

The run therefore ends just as that of the processor does.  It has a result if the processor
halts within the limit, it leaves the program where the processor does, and it is cut off in
all other cases.
-/

/-! ## Known machines and programs -/

/-- Every bit of a machine is a literal.  Whatever the registers, the flags and the memory
were set to, and with whatever default the memory began, was known. -/
def Machine.Known (machine : Machine) : Prop :=
  ∀ bit ∈ machine.bits, bit.known.isSome

/-- Every address in a program is made of literals. -/
def Program.Known (program : Program) : Prop :=
  ∀ instruction ∈ program.instructions, ∀ address, instruction.address? = some address ->
    ∀ bit ∈ address.bits, bit.known.isSome

/-- Where a known address points into the memory of a processor. -/
def Word.location (address : Word) : UInt32 :=
  .ofNat (address.known.getD 0)

/-- Everything that can be read from a machine at a known address is known, and is what a
processor holds. -/
structure Machine.Shows (machine : Machine) (processor : Processor) : Prop where
  register : ∀ register,
    (machine.register register).known = some (processor.register register).toNat
  flag : ∀ flag, (machine.flag flag).known = some (processor.flag flag)
  read : ∀ (address : Word) (place : UInt32), address.width = addressBits ->
    address.known = some place.toNat ->
    Succeeds (machine.read address) fun value =>
      value.known = some (processor.memory place).toNat

theorem Machine.Shows.foundBy {machine : Machine} {processor : Processor}
    (shows : machine.Shows processor) : machine.FoundBy Bit.known Word.known processor := by
  refine ⟨shows.register, shows.flag, ?_⟩
  intro place
  have probe := Interpretation.denotes_place .ofLiterals place
  exact shows.read _ place probe.width_eq (probe.known (by decide))

namespace Interpretation

theorem readsAll_of_known {bits : List Bit} (known : ∀ bit ∈ bits, bit.known.isSome) :
    ofLiterals.ReadsAll bits :=
  fun bit member => Option.isSome_iff_exists.mp (known bit member)

theorem Represents.shows {strategy : Strategy} {machine : Machine} {processor : Processor}
    (represents : ofLiterals.Represents strategy machine processor) :
    machine.Shows processor := by
  constructor
  · intro register
    exact (represents.register register).known (by decide)
  · intro flag
    exact represents.flag flag
  · intro address place hasWidth known
    have narrow : address.width ≤ Word.knownBits := by
      rw [hasWidth]
      decide
    have denotes := (known_eq_some_iff narrow).mp known
    rw [hasWidth] at denotes
    apply (represents.read denotes).mono
    intro value valueDenotes
    exact valueDenotes.known (by decide)

theorem locates_of_known {program : Program} (addressed : program.Addressed)
    (known : program.Known) : ofLiterals.Locates program Word.location := by
  intro instruction member address names
  have reads := readsAll_of_known (known instruction member address names)
  rcases reads.denotes (addressed instruction member address names) with ⟨number, denotes⟩
  rw [Word.location, denotes.known (by decide), Option.getD_some]
  exact denotes.toUInt32

end Interpretation

/-! ## One step -/

/-- A trace records the instructions of a run in which no path forked. -/
structure Trace.Records (trace : Trace) (visited : List Nat) : Prop where
  steps : trace.steps = visited.length
  count : ∀ pc, trace.count pc = visited.count pc
  forks : trace.forks = 0
  merges : trace.merges = 0

theorem Trace.Records.visit {trace : Trace} {visited : List Nat} (records : trace.Records visited)
    (pc : Nat) : (trace.visit pc).Records (visited ++ [pc]) := by
  constructor
  · rw [List.length_append, ← records.steps]
    rfl
  · intro other
    rw [count_visit, records.count, List.count_append, List.count_singleton]
    by_cases same : other = pc
    · simp [same]
    · simp [same, Ne.symm same]
  · exact records.forks
  · exact records.merges

namespace Interpretation

variable {strategy : Strategy} {program : Program} {locate : Word -> UInt32}
  {start processor : Processor} {thread : Thread} {limit remaining : Nat} {progress : Progress}

/-- On a known machine a step moves the thread to where the processor goes. -/
theorem Represents.step_alone
    (represents : ofLiterals.Represents strategy thread.machine processor) (pc : Nat)
    (instruction : Instruction)
    (located : ofLiterals.LocatesOperand instruction locate) (trace : Trace) :
    Succeeds ((Progress.idle trace).step pc thread instruction) fun next => ∃ machine,
      next = .alone (processor.after instruction pc) ⟨thread.predicate, machine⟩
        (trace.visit pc) ∧
      ofLiterals.Represents strategy machine (processor.act locate instruction) := by
  apply (represents.execute pc instruction located).bind
  rintro ⟨machine, flow⟩ ⟨executed, leads⟩
  cases flow with
  | next =>
      rw [show processor.after instruction pc = .running (pc + 1) from leads]
      exact .pure ⟨machine, rfl, executed⟩
  | branch condition destination =>
      rcases leads with ⟨taken, known, goes⟩
      change Succeeds ((Progress.idle (trace.visit pc)).follow pc { thread with machine } condition
        destination) _
      rw [goes, Progress.follow_of_known known]
      exact .pure ⟨machine, rfl, executed⟩
  | halt =>
      rw [show processor.after instruction pc = .halted from leads]
      apply (Progress.retire_idle pc { thread with machine } (trace.visit pc)).mono
      intro next same
      exact ⟨machine, same, executed⟩

/-! ## Runs -/

/-- The only thread of a run is that of a processor, which has come to it from the start and
has executed what the run has counted. -/
def Mirrors (strategy : Strategy) (program : Program) (locate : Word -> UInt32) (start : Processor)
    (limit remaining : Nat) (progress : Progress) : Prop :=
  ∃ visited control processor machine trace,
    progress = .alone control ⟨.one, machine⟩ trace ∧
    Reaches program locate (.running 0) start visited control processor ∧
    ofLiterals.Represents strategy machine processor ∧
    trace.Records visited ∧ visited.length + remaining = limit

/-- How a run agrees with that of a processor. -/
inductive Agrees (strategy : Strategy) (program : Program) (locate : Word -> UInt32)
    (start : Processor) (limit : Nat) : Except ExecutionError Execution -> Prop
  | halted {visited : List Nat} {final : Processor} {machine : Machine} {trace : Trace} :
      Runs program locate (.running 0) start visited final -> visited.length ≤ limit ->
      ofLiterals.Represents strategy machine final -> trace.Records visited ->
      Agrees strategy program locate start limit (.ok ⟨.one, machine, trace⟩)
  | left {visited : List Nat} {final : Processor} :
      Reaches program locate (.running 0) start visited (.running program.length) final ->
      visited.length < limit ->
      Agrees strategy program locate start limit
        (.error (.counterOutOfRange program.length program.length))
  | cut {visited : List Nat} {pc : Nat} {final : Processor} :
      Reaches program locate (.running 0) start visited (.running pc) final ->
      visited.length = limit ->
      Agrees strategy program locate start limit (.error (.stepLimitExceeded limit))

/-- What is pending is the thread of the processor, about to execute its next instruction. -/
theorem Mirrors.pop (mirrors : Mirrors strategy program locate start limit remaining progress)
    {pc : Nat} {rest : Table Thread}
    (popped : progress.pending.popFirst? = some ((pc, thread), rest)) :
    ∃ visited processor trace, { progress with pending := rest } = Progress.idle trace ∧
      thread.predicate = .one ∧
      Reaches program locate (.running 0) start visited (.running pc) processor ∧
      ofLiterals.Represents strategy thread.machine processor ∧
      trace.Records visited ∧ visited.length + remaining = limit := by
  rcases mirrors with ⟨visited, control, processor, machine, trace, rfl, reaches, represents,
    records, budget⟩
  cases control with
  | halted => cases popped
  | running pc =>
      rw [Progress.popFirst?_alone] at popped
      cases popped
      exact ⟨visited, processor, trace, rfl, rfl, reaches, represents, records, budget⟩

theorem Mirrors.step (located : ofLiterals.Locates program locate)
    (mirrors : Mirrors strategy program locate start limit (remaining + 1) progress)
    {pc : Nat} {rest : Table Thread} {instruction : Instruction}
    (popped : progress.pending.popFirst? = some ((pc, thread), rest))
    (found : program.get? pc = some instruction) :
    Succeeds (Progress.step { progress with pending := rest } pc thread instruction)
      (Mirrors strategy program locate start limit remaining) := by
  rcases mirrors.pop popped with ⟨visited, processor, trace, waiting, predicate, reaches,
    represents, records, budget⟩
  rw [waiting]
  have addresses := located instruction (List.mem_of_getElem? found)
  apply (represents.step_alone pc instruction addresses trace).mono
  rintro next ⟨machine, rfl, executed⟩
  refine ⟨visited ++ [pc], _, _, machine, _, ?_, reaches.advance found, executed,
    records.visit pc, ?_⟩
  · rw [predicate]
  · rw [List.length_append, List.length_singleton, ← budget]
    omega

/-- The run of a program on a known machine agrees with that of the processor. -/
theorem Represents.run_agrees {machine : Machine}
    (represents : ofLiterals.Represents strategy machine start)
    (located : ofLiterals.Locates program locate) (limit : Nat) :
    Ends (program.run machine limit) (Agrees strategy program locate start limit) := by
  apply Program.run_ends
  apply Program.explore_ends (Mirrors strategy program locate start limit)
  · rintro remaining progress ⟨visited, control, processor, machine, trace, rfl, reaches,
      represents, records, budget⟩ drained
    cases control with
    | running pc => cases drained
    | halted => exact .halted (runs_iff_reaches.mpr reaches) (by omega) represents records
  · intro progress pc thread rest mirrors popped
    rcases mirrors.pop popped with ⟨visited, processor, trace, _, _, reaches, _, _, budget⟩
    exact .cut reaches budget
  · intro remaining progress pc thread rest mirrors popped outside
    rcases mirrors.pop popped with ⟨visited, processor, trace, _, _, reaches, _, _, budget⟩
    have atEnd : pc = program.length :=
      Nat.le_antisymm (reaches.pc_le_length (Nat.zero_le _)) (List.getElem?_eq_none_iff.mp outside)
    subst atEnd
    exact .left reaches (by omega)
  · intro remaining progress pc thread rest instruction mirrors popped found
    exact mirrors.step located popped found
  · exact ⟨[], .running 0, start, machine, {}, rfl, .here _ _, represents,
      ⟨rfl, fun _ => rfl, rfl, rfl⟩, Nat.zero_add limit⟩

end Interpretation

namespace Interpretation.Agrees

variable {strategy : Strategy} {program : Program} {locate : Word -> UInt32} {start : Processor}
  {limit : Nat} {outcome : Except ExecutionError Execution}

theorem ok_iff (agrees : Agrees strategy program locate start limit outcome) :
    (∃ execution, outcome = .ok execution) ↔ program.HaltsWithin locate start limit := by
  cases agrees with
  | halted runs within _ _ => exact iff_of_true ⟨_, rfl⟩ ⟨_, _, runs, within⟩
  | left reaches within =>
      apply iff_of_false
      · rintro ⟨execution, ⟨⟩⟩
      · intro halts
        exact halts.not_leaves ⟨_, _, reaches, within⟩
  | cut reaches exhausted =>
      apply iff_of_false
      · rintro ⟨execution, ⟨⟩⟩
      · rw [← exhausted]
        exact Program.not_haltsWithin_of_reaches reaches

theorem counterOutOfRange_iff (agrees : Agrees strategy program locate start limit outcome) :
    outcome = .error (.counterOutOfRange program.length program.length) ↔
      program.LeavesWithin locate start limit := by
  cases agrees with
  | halted runs within _ _ =>
      apply iff_of_false
      · rintro ⟨⟩
      · exact Program.HaltsWithin.not_leaves ⟨_, _, runs, within⟩
  | left reaches within => exact iff_of_true rfl ⟨_, _, reaches, within⟩
  | cut reaches exhausted =>
      apply iff_of_false
      · rintro ⟨⟩
      · rw [← exhausted]
        exact Program.not_leavesWithin_of_reaches reaches

/-- A run that is not cut off has a result or leaves the program. -/
theorem stepLimitExceeded_iff (agrees : Agrees strategy program locate start limit outcome) :
    outcome = .error (.stepLimitExceeded limit) ↔
      ¬ program.HaltsWithin locate start limit ∧ ¬ program.LeavesWithin locate start limit := by
  rw [← agrees.ok_iff, ← agrees.counterOutOfRange_iff]
  cases agrees <;> simp

theorem shows_final (agrees : Agrees strategy program locate start limit outcome)
    {execution : Execution} (completed : outcome = .ok execution) :
    ∃ visited final, Runs program locate (.running 0) start visited final ∧
      execution.trace.Records visited ∧ execution.predicate = .literal true ∧
      execution.machine.Shows final := by
  cases agrees with
  | halted runs within represents records =>
      cases completed
      exact ⟨_, _, runs, records, rfl, represents.shows⟩
  | left reaches within => cases completed
  | cut reaches exhausted => cases completed

end Interpretation.Agrees

/-! ## Exactness -/

/-- A run on a known machine is exact.  It has a result just when the processor that the
machine shows halts within the limit, it leaves the program just when the processor does so
before the limit, and otherwise it is cut off.  The result counts the instructions that the
processor has executed, has taken no fork and no join, holds under the literal truth, and
shows the processor that halted. -/
theorem Program.run_exact_on_known (program : Program) (machine : Machine) (limit : Nat)
    (addressed : program.Addressed) (knownProgram : program.Known)
    (wellFormed : machine.WellFormed) (known : machine.Known) :
    (∃ start, machine.Shows start) ∧
    ∀ start, machine.Shows start ->
      Ends (program.run machine limit) fun outcome =>
        ((∃ execution, outcome = .ok execution) ↔
          program.HaltsWithin Word.location start limit) ∧
        (outcome = .error (.counterOutOfRange program.length program.length) ↔
          program.LeavesWithin Word.location start limit) ∧
        (outcome = .error (.stepLimitExceeded limit) ↔
          ¬ program.HaltsWithin Word.location start limit ∧
          ¬ program.LeavesWithin Word.location start limit) ∧
        ∀ execution, outcome = .ok execution ->
          ∃ visited final, Runs program Word.location (.running 0) start visited final ∧
            execution.trace.Records visited ∧ execution.predicate = .literal true ∧
            execution.machine.Shows final := by
  have located := Interpretation.locates_of_known addressed knownProgram
  rcases wellFormed.represents (Interpretation.readsAll_of_known known) with
    ⟨processor, represents⟩
  constructor
  · exact ⟨processor, represents.shows⟩
  · intro start shows
    rw [shows.foundBy.unique represents.shows.foundBy]
    apply (represents.run_agrees located limit).mono
    intro outcome agrees
    exact ⟨agrees.ok_iff, agrees.counterOutOfRange_iff, agrees.stepLimitExceeded_iff,
      fun execution completed => agrees.shows_final completed⟩

/-- Rotate a word in memory as often as a register says. -/
def Program.rotateRepeatedly : Program where
  instructions := [.rotateMemory (.constant 1 32), .decrement .x, .branchIfClear .zero 0, .halt]
  labels := .empty
  branches_inside := target_lt_of_strayBranch?_eq_none
    (show strayBranch? 4 0 [.rotateMemory (.constant 1 32), .decrement .x, .branchIfClear .zero 0,
      .halt] = none from rfl)

/-- A machine that is to rotate a word twice. -/
def Machine.twoRotations : Machine where
  memory := .dense ⟨.constant 6 8, [⟨.constant 1 32, .constant 129 8⟩]⟩
  x := .constant 2 8
  a := .zero 8
  carry := .zero
  zero := .one

/-- The processor executes its halt as the seventh instruction, so that a limit of seven is
the least with which the run has a result. -/
theorem Program.run_exact_on_known_rotateRepeatedly :
    rotateRepeatedly.Addressed ∧ rotateRepeatedly.Known ∧ Machine.twoRotations.WellFormed ∧
    Machine.twoRotations.Known ∧
    ∃ start, Machine.twoRotations.Shows start ∧
      rotateRepeatedly.HaltsWithin Word.location start 7 ∧
      ¬ rotateRepeatedly.HaltsWithin Word.location start 6 := by
  have operand : ∀ instruction ∈ rotateRepeatedly.instructions, ∀ address,
      instruction.address? = some address -> address = .constant 1 32 := by
    intro instruction member address names
    simp only [rotateRepeatedly, List.mem_cons, List.not_mem_nil, or_false] at member
    rcases member with rfl | rfl | rfl | rfl
    · cases names
      rfl
    · cases names
    · cases names
    · cases names
  have addressed : rotateRepeatedly.Addressed := by
    intro instruction member address names
    rw [operand instruction member address names]
    rfl
  have knownProgram : rotateRepeatedly.Known := by
    intro instruction member address names
    rw [operand instruction member address names]
    decide
  have wellFormed : Machine.twoRotations.WellFormed := by
    constructor
    · intro register
      cases register <;> rfl
    · constructor
      · rfl
      · intro cell member
        cases List.mem_singleton.mp member
        exact ⟨rfl, rfl⟩
  have known : Machine.twoRotations.Known := by
    unfold Machine.Known
    decide
  have agreement := fun limit => run_exact_on_known rotateRepeatedly .twoRotations limit addressed
    knownProgram wellFormed known
  rcases (agreement 7).1 with ⟨start, shows⟩
  have halts : ∀ limit, rotateRepeatedly.HaltsWithin Word.location start limit ↔
      (((rotateRepeatedly.run .twoRotations limit).run.run.run {}).1.toOption.bind
        Except.toOption).isSome = true := by
    intro limit
    rcases (agreement limit).2 start shows {} with ⟨outcome, ended, halts, _⟩
    rw [ended, ← halts]
    cases outcome with
    | error cause => simp [Except.toOption]
    | ok execution => simp [Except.toOption]
  refine ⟨addressed, knownProgram, wellFormed, known, start, shows, ?_, ?_⟩
  · rw [halts]
    decide +kernel
  · rw [halts]
    decide +kernel

end SymbolicMachine
