import SymbolicMachine.Proofs.ExecutionSoundness
import SymbolicMachine.Proofs.Multiplication
import SymbolicMachine.Proofs.MultiplierExploration
import SymbolicMachine.Proofs.ProcessorRuns

namespace SymbolicMachine

/-!
# Agreement of verifications

What comes out of a verification is settled by the values of its inputs.  Two verifications
of inputs with the same values stand for one run of one processor, so their results and
obligations read alike.  Each may be read in its own way, and neither how the inputs are
written nor how memory is kept makes a difference, even where addresses coincide and the
result is no product.

There are two instances.  The inputs of one verification can be the constants to which the
inputs of the other evaluate; then everything in its result is known.  And two verifications
of the same inputs can keep memory in different shapes.
-/

/-! ## The run that inputs describe -/

/-- The same multiplier under other addresses that are located in the same places. -/
theorem Multiplier.alike {locate relocate : Word -> UInt32}
    {factor1 factor2 low factor1' factor2' low' : Word}
    (first : relocate factor1' = locate factor1) (second : relocate factor2' = locate factor2)
    (third : relocate low' = locate low) :
    List.Forall₂ (Instruction.Alike locate relocate) (instructions factor1 factor2 low)
      (instructions factor1' factor2' low') :=
  .cons (.same rfl) <| .cons (.same rfl) <| .cons (.same rfl) <|
  .cons (.rotateMemory first) <| .cons (.same rfl) <| .cons (.same rfl) <|
  .cons (.addWithCarry second) <| .cons (.same rfl) <| .cons (.rotateMemory third) <|
  .cons (.same rfl) <| .cons (.same rfl) <| .cons (.same rfl) .nil

theorem Bit.eval_eq_of_value_ofBit {first second : Bit} {valuation other : Nat -> Bool}
    (same : (Word.ofBit first).value valuation = (Word.ofBit second).value other) :
    first.eval valuation = second.eval other := by
  have equal : [first.eval valuation] = [second.eval other] := Word.ofBools_injective rfl same
  exact List.singleton_inj.mp equal

namespace Inputs

/-- The multiplier runs to a halt from the processor that inputs describe. -/
def HaltsIn (inputs : Inputs) (valuation : Nat -> Bool) (final : Processor) : Prop :=
  ∃ program visited, program.instructions = Multiplier.instructions inputs.factor1Address
      inputs.factor2Address inputs.lowAddress ∧
    Runs program (Word.place valuation) (.running 0) (inputs.processor valuation) visited final

/-- A run that halts for some inputs is a run for others that locate the addresses in the same
places. -/
theorem HaltsIn.relocate {inputs variant : Inputs} {valuation other : Nat -> Bool}
    {ending : Processor} (halts : variant.HaltsIn other ending)
    (first : inputs.factor1Address.place valuation = variant.factor1Address.place other)
    (second : inputs.factor2Address.place valuation = variant.factor2Address.place other)
    (third : inputs.lowAddress.place valuation = variant.lowAddress.place other)
    {program : Program} (code : program.instructions = Multiplier.instructions
      inputs.factor1Address inputs.factor2Address inputs.lowAddress) :
    ∃ visited, Runs program (Word.place valuation) (.running 0) (variant.processor other) visited
      ending := by
  rcases halts with ⟨moved, visited, movedCode, movedRuns⟩
  have alike : List.Forall₂ (Instruction.Alike (Word.place other) (Word.place valuation))
      moved.instructions program.instructions := by
    rw [code, movedCode]
    exact Multiplier.alike first second third
  exact ⟨visited, movedRuns.relocate alike⟩

/-- Inputs have the same values, each under a valuation. -/
def SameValues (first : Inputs) (valuation : Nat -> Bool) (second : Inputs)
    (other : Nat -> Bool) : Prop :=
  ∀ name, (first.get name).toWord.value valuation = (second.get name).toWord.value other

namespace SameValues

variable {first second : Inputs} {valuation other : Nat -> Bool}

theorem processor_eq (same : first.SameValues valuation second other) :
    first.processor valuation = second.processor other := by
  have fill : first.memoryFill.value valuation = second.memoryFill.value other := same .memoryFill
  have firstAddress : first.factor1Address.value valuation = second.factor1Address.value other :=
    same .factor1Address
  have secondAddress : first.factor2Address.value valuation = second.factor2Address.value other :=
    same .factor2Address
  have firstFactor : first.factor1.value valuation = second.factor1.value other := same .factor1
  have secondFactor : first.factor2.value valuation = second.factor2.value other := same .factor2
  apply Processor.eq_of_parts
  · intro register
    cases register with
    | x => exact congrArg UInt8.ofNat (same .x)
    | a => exact congrArg UInt8.ofNat (same .a)
  · intro flag
    cases flag with
    | carry => exact Bit.eval_eq_of_value_ofBit (same .carry)
    | zero => exact Bit.eval_eq_of_value_ofBit (same .zero)
  · intro place
    simp only [processor, memory, Word.place, fill, firstAddress, secondAddress, firstFactor,
      secondFactor]

/-- Inputs of the same values halt in the same processor. -/
theorem final_eq (same : first.SameValues valuation second other) {final ending : Processor}
    (firstHalts : first.HaltsIn valuation final) (secondHalts : second.HaltsIn other ending) :
    final = ending := by
  rcases firstHalts with ⟨program, visited, code, runs⟩
  have place : ∀ name,
      (first.get name).toWord.place valuation = (second.get name).toWord.place other :=
    fun name => congrArg UInt32.ofNat (same name)
  rcases secondHalts.relocate (place .factor1Address) (place .factor2Address) (place .lowAddress)
    code with ⟨_, movedRuns⟩
  rw [same.processor_eq] at runs
  exact movedRuns.unique runs

end SameValues
end Inputs

namespace Interpretation

/-! ## What settles a verification -/

/-- A run of a verification stands for the run of the processor that its inputs describe:
so do its machine and its result words, and its obligation says what has to hold of them. -/
structure Settles (I : Interpretation) (valuation : Nat -> Bool) (run : Verification.Run)
    (final : Processor) : Prop where
  halts : run.inputs.HaltsIn valuation final
  machine : ∃ strategy, I.Represents strategy run.execution.machine final
  high : I.Denotes wordBits run.high final.a.toNat
  low : I.Denotes wordBits run.low
    (final.memory (run.inputs.lowAddress.place valuation)).toNat
  obligation : Succeeds run.obligation fun obligation =>
    I.Reads obligation.precondition (decide (run.inputs.AddressesDiffer valuation)) ∧
    I.Reads obligation.conclusion (decide (256 * final.a.toNat +
      (final.memory (run.inputs.lowAddress.place valuation)).toNat =
        run.inputs.factor1.value valuation * run.inputs.factor2.value valuation))

/-- Every finished run of a verification is settled. -/
theorem Knows.run_settles {I : Interpretation} {valuation : Nat -> Bool} {inputs : Inputs}
    (knows : I.Knows valuation inputs) (settings : Settings) :
    Yields (Verification.run settings inputs) fun run =>
      run.inputs = inputs ∧ ∃ final, I.Settles valuation run final := by
  apply (knows.run settings).mono
  rintro run ⟨rfl, code, visited, final, runs, represents, high, low⟩
  refine ⟨rfl, final, ⟨run.program, visited, code, runs⟩, ⟨_, represents⟩, high, low, ?_⟩
  exact reads_ofResult (knows .factor1Address) (knows .factor2Address) (knows .lowAddress)
    (knows .factor1) (knows .factor2) high low

/-! ## Runs that read alike -/

/-- Two bits have one value, each under an interpretation. -/
def ReadsAlike (I J : Interpretation) (left right : Bit) : Prop :=
  ∃ value, I.Reads left value ∧ J.Reads right value

/-- Two runs of verifications come to the same, each under an interpretation. -/
structure RunsAlike (I J : Interpretation) (first second : Verification.Run) : Prop where
  high : ∃ number, I.Denotes wordBits first.high number ∧ J.Denotes wordBits second.high number
  low : ∃ number, I.Denotes wordBits first.low number ∧ J.Denotes wordBits second.low number
  machine : ∃ final strategy other, I.Represents strategy first.execution.machine final ∧
    J.Represents other second.execution.machine final
  obligation : Succeeds first.obligation fun left => Succeeds second.obligation fun right =>
    ReadsAlike I J left.precondition right.precondition ∧
    ReadsAlike I J left.conclusion right.conclusion ∧
    Gives left.statement fun leftStatement => Gives right.statement fun rightStatement =>
      ReadsAlike I J leftStatement rightStatement

variable {I J : Interpretation} {valuation other : Nat -> Bool} {first second : Verification.Run}
  {final ending : Processor}

/-- Verifications of inputs with the same values come to the same. -/
theorem Settles.alike (same : first.inputs.SameValues valuation second.inputs other)
    (firstSettles : I.Settles valuation first final)
    (secondSettles : J.Settles other second ending) : RunsAlike I J first second := by
  have equal := same.final_eq firstSettles.halts secondSettles.halts
  subst equal
  have firstAddress : first.inputs.factor1Address.value valuation =
      second.inputs.factor1Address.value other := same .factor1Address
  have secondAddress : first.inputs.factor2Address.value valuation =
      second.inputs.factor2Address.value other := same .factor2Address
  have lowAddress : first.inputs.lowAddress.value valuation =
      second.inputs.lowAddress.value other := same .lowAddress
  have firstFactor : first.inputs.factor1.value valuation = second.inputs.factor1.value other :=
    same .factor1
  have secondFactor : first.inputs.factor2.value valuation = second.inputs.factor2.value other :=
    same .factor2
  rcases firstSettles with ⟨_, ⟨strategy, firstMachine⟩, firstHigh, firstLow, firstObligation⟩
  rcases secondSettles with ⟨_, ⟨otherStrategy, secondMachine⟩, secondHigh, secondLow,
    secondObligation⟩
  simp only [Inputs.AddressesDiffer, Word.place, firstAddress, secondAddress, lowAddress,
    firstFactor, secondFactor] at firstLow firstObligation
  refine ⟨⟨_, firstHigh, secondHigh⟩, ⟨_, firstLow, secondLow⟩,
    ⟨final, strategy, otherStrategy, firstMachine, secondMachine⟩, ?_⟩
  apply firstObligation.mono
  rintro left ⟨leftPrecondition, leftConclusion⟩
  apply secondObligation.mono
  rintro right ⟨rightPrecondition, rightConclusion⟩
  refine ⟨⟨_, leftPrecondition, rightPrecondition⟩, ⟨_, leftConclusion, rightConclusion⟩, ?_⟩
  refine (leftPrecondition.implies leftConclusion).mono ?_
  intro leftStatement leftReads
  refine (rightPrecondition.implies rightConclusion).mono ?_
  intro rightStatement rightReads
  exact ⟨_, leftReads, rightReads⟩

/-- What follows for bits that read alike follows for the bits of the obligations. -/
theorem RunsAlike.obligations {related : Bit -> Bit -> Prop} (alike : RunsAlike I J first second)
    (implied : ∀ left right, ReadsAlike I J left right -> related left right) :
    Succeeds first.obligation fun left => Succeeds second.obligation fun right =>
      related left.precondition right.precondition ∧ related left.conclusion right.conclusion ∧
      Gives left.statement fun leftStatement => Gives right.statement fun rightStatement =>
        related leftStatement rightStatement := by
  apply alike.obligation.mono
  intro left readAlike
  apply readAlike.mono
  intro right parts
  rcases parts with ⟨precondition, conclusion, statements⟩
  refine ⟨implied _ _ precondition, implied _ _ conclusion, ?_⟩
  refine statements.mono fun leftStatement readAlike => ?_
  exact readAlike.mono fun rightStatement => implied leftStatement rightStatement

end Interpretation

/-! ## Constant inputs -/

/-- The constant to which a word evaluates. -/
def Assignment.instantiateWord (assignment : Assignment) (word : Word) : Word :=
  .constant ((assignment.evaluateWord word).getD 0) word.width

/-- The literal to which a bit evaluates. -/
def Assignment.instantiateBit (assignment : Assignment) (bit : Bit) : Bit :=
  .literal ((assignment.evaluate bit).getD false)

/-- The inputs in which every word and bit is what it evaluates to. -/
def Inputs.instantiate (inputs : Inputs) (assignment : Assignment) : Inputs where
  memoryBase := assignment.instantiateWord inputs.memoryBase
  factor1Address := assignment.instantiateWord inputs.factor1Address
  factor1 := assignment.instantiateWord inputs.factor1
  factor2Address := assignment.instantiateWord inputs.factor2Address
  factor2 := assignment.instantiateWord inputs.factor2
  lowAddress := assignment.instantiateWord inputs.lowAddress
  x := assignment.instantiateWord inputs.x
  a := assignment.instantiateWord inputs.a
  memoryFill := assignment.instantiateWord inputs.memoryFill
  carry := assignment.instantiateBit inputs.carry
  zero := assignment.instantiateBit inputs.zero

namespace Interpretation

variable {assignment : Assignment} {width n : Nat} {word : Word}

theorem Denotes.instantiateWord (denotes : (ofAssignment assignment).Denotes width word n)
    (narrow : width ≤ Word.knownBits) :
    ofLiterals.Denotes width (assignment.instantiateWord word) n := by
  rw [Assignment.instantiateWord, denotes.evaluateWord narrow, Option.getD_some, denotes.width_eq]
  exact denotes_constant_of_lt denotes.lt

theorem Denotes.instantiateBit {bit : Bit} {valuation : Nat -> Bool}
    (denotes : (ofAssignment assignment).Denotes 1 (.ofBit bit) ((Word.ofBit bit).value valuation)) :
    ofLiterals.Denotes 1 (.ofBit (assignment.instantiateBit bit))
      ((Word.ofBit bit).value valuation) := by
  have reads := denotes.reads_bit
  rw [Assignment.instantiateBit, Assignment.evaluate_eq]
  have evaluated : bit.eval? assignment = some (bit.eval valuation) := reads
  rw [evaluated, Option.getD_some]
  exact ⟨[bit.eval valuation], .cons rfl .nil, rfl, rfl⟩

/-- Each constant denotes what the input denotes for which it stands. -/
theorem Knows.instantiate {inputs : Inputs} {valuation : Nat -> Bool}
    (knows : (ofAssignment assignment).Knows valuation inputs) (name : InputName) :
    ofLiterals.Denotes name.width ((inputs.instantiate assignment).get name).toWord
      ((inputs.get name).toWord.value valuation) := by
  cases name with
  | carry => exact (knows .carry).instantiateBit
  | zero => exact (knows .zero).instantiateBit
  | _ => exact (knows _).instantiateWord (by decide)

end Interpretation

theorem Inputs.WellFormed.instantiate {inputs : Inputs} {assignment : Assignment}
    (wellFormed : inputs.WellFormed) (covers : assignment.Covers inputs.support) :
    (inputs.instantiate assignment).WellFormed :=
  fun name => ((Interpretation.knows_of_covers wellFormed covers).instantiate name).width_eq

theorem Inputs.sameValues_instantiate {inputs : Inputs} {assignment : Assignment}
    (wellFormed : inputs.WellFormed) (covers : assignment.Covers inputs.support) :
    inputs.SameValues assignment.valuation (inputs.instantiate assignment) assignment.valuation :=
  fun name =>
    (((Interpretation.knows_of_covers wellFormed covers).instantiate name).value_eq _).symm

theorem Interpretation.knows_instantiate {inputs : Inputs} {assignment : Assignment}
    (wellFormed : inputs.WellFormed) (covers : assignment.Covers inputs.support) :
    ofLiterals.Knows assignment.valuation (inputs.instantiate assignment) := by
  intro name
  rw [← Inputs.sameValues_instantiate wellFormed covers name]
  exact (knows_of_covers wellFormed covers).instantiate name

/-! ## Verifications -/

namespace Verification

open Interpretation in
/-- A verification of open inputs stands for those of all constant inputs.  Under every
assignment, what is known of the result and of the obligation for the constants to which the
inputs evaluate is what the result and the obligation evaluate to for the inputs themselves. -/
theorem run_instantiates (settings : Settings) (enough : 68 ≤ settings.stepLimit)
    (inputs : Inputs) (wellFormed : inputs.WellFormed) (assignment : Assignment)
    (covers : assignment.Covers inputs.support) :
    Completes (run settings inputs) fun general =>
      Completes (run settings (inputs.instantiate assignment)) fun special =>
        (∃ high, assignment.evaluateWord general.high = some high ∧
          special.high.known = some high) ∧
        (∃ low, assignment.evaluateWord general.low = some low ∧
          special.low.known = some low) ∧
        Succeeds general.obligation fun obligation => Succeeds special.obligation fun constant =>
          (∃ value, assignment.evaluate obligation.precondition = some value ∧
            constant.precondition = .literal value) ∧
          (∃ value, assignment.evaluate obligation.conclusion = some value ∧
            constant.conclusion = .literal value) ∧
          Gives obligation.statement fun statement =>
            Gives constant.statement fun constantStatement =>
              ∃ value, assignment.evaluate statement = some value ∧
                constantStatement = .literal value := by
  have knows := knows_of_covers wellFormed covers
  have known := knows_instantiate wellFormed covers
  have completes := run_completes settings wellFormed enough
  have specialCompletes := run_completes settings (wellFormed.instantiate covers) enough
  have literal : ∀ left right, ReadsAlike (ofAssignment assignment) ofLiterals left right ->
      ∃ value, assignment.evaluate left = some value ∧ right = .literal value := by
    rintro left right ⟨value, leftReads, rightReads⟩
    rw [Assignment.evaluate_eq]
    exact ⟨value, leftReads, Bit.known_eq_some_iff.mp rightReads⟩
  apply (completes.and_yields (knows.run_settles settings)).mono
  rintro general ⟨_, sameInputs, final, settles⟩
  apply (specialCompletes.and_yields (known.run_settles settings)).mono
  rintro special ⟨_, instantiated, ending, specialSettles⟩
  have same := Inputs.sameValues_instantiate wellFormed covers
  rw [← instantiated, ← sameInputs] at same
  have alike := Settles.alike same settles specialSettles
  refine ⟨?_, ?_, alike.obligations literal⟩
  · rcases alike.high with ⟨high, evaluates, known⟩
    exact ⟨high, evaluates.evaluate_word, known.known (by decide)⟩
  · rcases alike.low with ⟨low, evaluates, known⟩
    exact ⟨low, evaluates.evaluate_word, known.known (by decide)⟩

/-- Where the address for the low word is that of the second factor, the result is no
product, but it is the same for the open inputs and for their constants. -/
theorem run_instantiates_halfOpen :
    let assignment : Assignment := .ofList [(0, true), (1, false), (2, true)]
    let settings : Settings := ⟨.array, 68⟩
    halfOpen.WellFormed ∧ assignment.Covers halfOpen.support ∧
    assignment.evaluateWord halfOpen.lowAddress =
      assignment.evaluateWord halfOpen.factor2Address ∧
    ∃ general special high, ((run settings halfOpen).run.run.run {}).1 = .ok (.ok general) ∧
      ((run settings (halfOpen.instantiate assignment)).run.run.run {}).1 = .ok (.ok special) ∧
      assignment.evaluateWord general.high = some high ∧ special.high.known = some high := by
  intro assignment settings
  have wellFormed := halfOpen_wellFormed
  have covers : assignment.Covers halfOpen.support := by
    decide
  have aliased : assignment.evaluateWord halfOpen.lowAddress =
      assignment.evaluateWord halfOpen.factor2Address := by
    rw [Assignment.evaluateWord_eq, Assignment.evaluateWord_eq]
    rfl
  have instantiates := run_instantiates settings (by decide) halfOpen wellFormed assignment covers {}
  rcases instantiates with ⟨_, ended, general, rfl, specialCompletes⟩
  rcases specialCompletes {} with ⟨_, specialEnded, special, rfl, ⟨high, evaluates, known⟩, _⟩
  exact ⟨wellFormed, covers, aliased, general, special, high, ended, specialEnded, evaluates, known⟩

/-- Two runs come to the same under an assignment: the result words, all that can be read
from the machines, and the obligations evaluate alike. -/
structure Run.Agree (assignment : Assignment) (first second : Run) : Prop where
  high : ∃ high, assignment.evaluateWord first.high = some high ∧
    assignment.evaluateWord second.high = some high
  low : ∃ low, assignment.evaluateWord first.low = some low ∧
    assignment.evaluateWord second.low = some low
  machine : ∃ final, first.execution.machine.Evaluates assignment final ∧
    second.execution.machine.Evaluates assignment final
  obligation : Succeeds first.obligation fun left => Succeeds second.obligation fun right =>
    (∃ value, assignment.evaluate left.precondition = some value ∧
      assignment.evaluate right.precondition = some value) ∧
    (∃ value, assignment.evaluate left.conclusion = some value ∧
      assignment.evaluate right.conclusion = some value) ∧
    Gives left.statement fun leftStatement => Gives right.statement fun rightStatement =>
      ∃ value, assignment.evaluate leftStatement = some value ∧
        assignment.evaluate rightStatement = some value

open Interpretation in
theorem Run.agree_of_alike {assignment : Assignment} {first second : Run}
    (alike : RunsAlike (ofAssignment assignment) (ofAssignment assignment) first second) :
    Run.Agree assignment first second := by
  have evaluated : ∀ left right,
      ReadsAlike (ofAssignment assignment) (ofAssignment assignment) left right ->
      ∃ value, assignment.evaluate left = some value ∧ assignment.evaluate right = some value := by
    rintro left right ⟨value, leftReads, rightReads⟩
    rw [Assignment.evaluate_eq, Assignment.evaluate_eq]
    exact ⟨value, leftReads, rightReads⟩
  constructor
  · rcases alike.high with ⟨high, firstDenotes, secondDenotes⟩
    exact ⟨high, firstDenotes.evaluate_word, secondDenotes.evaluate_word⟩
  · rcases alike.low with ⟨low, firstDenotes, secondDenotes⟩
    exact ⟨low, firstDenotes.evaluate_word, secondDenotes.evaluate_word⟩
  · rcases alike.machine with ⟨final, strategy, other, firstRepresents, secondRepresents⟩
    exact ⟨final, firstRepresents.evaluates, secondRepresents.evaluates⟩
  · exact alike.obligations evaluated

open Interpretation in
/-- How memory is kept makes no difference to a verification. -/
theorem strategies_agree (limit : Nat) (enough : 68 ≤ limit) (inputs : Inputs)
    (wellFormed : inputs.WellFormed) :
    Completes (run ⟨.dense, limit⟩ inputs) fun dense =>
      Completes (run ⟨.array, limit⟩ inputs) fun array =>
        ∀ assignment : Assignment, assignment.Covers inputs.support ->
          Run.Agree assignment dense array := by
  have settles : ∀ strategy, Completes (run ⟨strategy, limit⟩ inputs) fun run => True ∧
      ∀ assignment : { assignment : Assignment // assignment.Covers inputs.support },
        run.inputs = inputs ∧
        ∃ final, (ofAssignment assignment.1).Settles assignment.1.valuation run final := by
    intro strategy
    apply (run_completes ⟨strategy, limit⟩ wellFormed enough).and_all
    intro assignment
    exact (knows_of_covers wellFormed assignment.2).run_settles ⟨strategy, limit⟩
  apply (settles .dense).mono
  rintro dense ⟨_, denseSettles⟩
  apply (settles .array).mono
  rintro array ⟨_, arraySettles⟩ assignment covers
  rcases denseSettles ⟨assignment, covers⟩ with ⟨denseInputs, final, denseFinal⟩
  rcases arraySettles ⟨assignment, covers⟩ with ⟨arrayInputs, ending, arrayFinal⟩
  have same : dense.inputs.SameValues assignment.valuation array.inputs assignment.valuation := by
    rw [denseInputs, arrayInputs]
    exact fun name => rfl
  exact Run.agree_of_alike (Settles.alike same denseFinal arrayFinal)

/-- The same for inputs of which two addresses may coincide, where they do and where they
do not. -/
theorem strategies_agree_halfOpen :
    let aliased : Assignment := .ofList [(0, true), (1, false), (2, true)]
    let apart : Assignment := .ofList [(0, true), (1, true), (2, true)]
    halfOpen.WellFormed ∧ aliased.Covers halfOpen.support ∧ apart.Covers halfOpen.support ∧
    ∃ dense array, ((run ⟨.dense, 68⟩ halfOpen).run.run.run {}).1 = .ok (.ok dense) ∧
      ((run ⟨.array, 68⟩ halfOpen).run.run.run {}).1 = .ok (.ok array) ∧
      Run.Agree aliased dense array ∧ Run.Agree apart dense array := by
  intro aliased apart
  have wellFormed := halfOpen_wellFormed
  have aliasedCovers : aliased.Covers halfOpen.support := by
    decide
  have apartCovers : apart.Covers halfOpen.support := by
    decide
  rcases strategies_agree 68 (by decide) halfOpen wellFormed {} with
    ⟨_, denseEnded, dense, rfl, arrayCompletes⟩
  rcases arrayCompletes {} with ⟨_, arrayEnded, array, rfl, agree⟩
  exact ⟨wellFormed, aliasedCovers, apartCovers, dense, array, denseEnded, arrayEnded,
    agree aliased aliasedCovers, agree apart apartCovers⟩

end Verification
end SymbolicMachine
