import Mathlib.Tactic.IntervalCases
import SymbolicMachine.Proofs.VerificationAgreement

namespace SymbolicMachine

/-!
# What the multiplier leaves

A finished run of the multiplier leaves a machine of which every part is known once the inputs
are.  Where the three addresses differ, the parts are given by numbers: the product in the
accumulator and the low word, the second factor as it was, and in the place of the first factor
and in the carry flag the bits that the low word held at first.  The rest of memory is as it was
filled.

The machine from which the run starts has more parts than that.  Its registers and its carry
flag are set before they are read, and its zero flag is set in every round before the branch
that reads it.  None of them can be told from the final machine, whether or not the addresses
differ, nor can what the memory held before it was filled.  If the addresses differ, even what
it was filled with cannot be told from the result words.
-/

namespace Multiplier

variable {program : Program} {locate : Word -> UInt32} {factor1 factor2 low : Word}
  {processor other final ending : Processor} {visited revisited : List Nat}
  {memory : UInt32 -> UInt8}

/-! ## The last stage -/

/-- The instructions in front of the last branch lead no further than to it. -/
theorem after_le_ten {pc : Nat} {instruction : Instruction} (processor : Processor)
    (found : (instructions factor1 factor2 low)[pc]? = some instruction) (before : pc < 10) :
    ∃ next ≤ 10, processor.after instruction pc = .running next := by
  have leads := processor.after_mem_leadsTo instruction pc
  interval_cases pc <;> cases found <;>
    simp only [Instruction.leadsTo, List.mem_cons, List.not_mem_nil, or_false] at leads <;>
    first
    | exact ⟨_, by decide, leads⟩
    | rcases leads with taken | notTaken
      · exact ⟨_, by decide, taken⟩
      · exact ⟨_, by decide, notTaken⟩

/-- A run through the multiplier halts with the zero flag set, since there is no other way to
its halt. -/
theorem zero_of_runs {pc : Nat} (code : program.instructions = instructions factor1 factor2 low)
    (inside : pc ≤ 10) (runs : Runs program locate (.running pc) processor visited final) :
    final.zero = true := by
  generalize start : Control.running pc = control at runs
  induction runs generalizing pc with
  | halted => cases start
  | @step current instruction processor _ _ found rest ih =>
      have same : pc = current := Control.running.inj start
      subst same
      rw [get?_eq code] at found
      by_cases before : pc < 10
      · rcases after_le_ten processor found before with ⟨next, nextInside, goes⟩
        exact ih nextInside goes.symm
      · have last : pc = 10 := by omega
        subst last
        cases found
        cases set : processor.zero with
        | false => exact ih (show 3 ≤ 10 by decide) (by rw [Processor.after, Processor.flag, set]; rfl)
        | true =>
            rw [Processor.after, Processor.flag, set] at rest
            rcases rest.next (get?_eq code 11) with ⟨_, halted⟩
            rw [halted.eq_of_halted]
            exact set

theorem Stage.memory_eq (stage : Stage locate factor1 factor2 low memory 8 processor)
    (place : UInt32) :
    (processor.memory place).toNat =
      if place = locate low then
        (memory (locate factor1)).toNat * (memory (locate factor2)).toNat % 256
      else if place = locate factor1 then 2 * (memory (locate low)).toNat % 256
      else (memory place).toNat := by
  by_cases atLow : place = locate low
  · rw [if_pos atLow, atLow, stage.lowCell]
    exact shifted_eight _ (UInt8.toNat_lt _)
  · rw [if_neg atLow]
    by_cases atFirst : place = locate factor1
    · rw [if_pos atFirst, atFirst, stage.firstCell]
      exact shifted_eight _ (UInt8.toNat_lt _)
    · rw [if_neg atFirst, stage.others place atFirst atLow]

/-! ## What the multiplier forgets -/

/-- What the instructions in front of the first round make of a processor. -/
def prepared (processor : Processor) : Processor :=
  { processor with x := 8, a := 0, carry := false }

theorem runs_prepared (code : program.instructions = instructions factor1 factor2 low)
    (runs : Runs program locate (.running 0) processor visited final) :
    ∃ rest, Runs program locate (.running 3) (prepared processor) rest final := by
  rcases runs.next (get?_eq code 0) with ⟨_, counted⟩
  rcases counted.next (get?_eq code 1) with ⟨_, emptied⟩
  exact emptied.next (get?_eq code 2)

/-- Up to where its paths meet, a round at most sets the zero flag. -/
theorem roundSum_withFlag_zero (locate : Word -> UInt32) (factor1 factor2 : Word)
    (processor : Processor) (value : Bool) :
    ∃ kept, roundSum locate factor1 factor2 (processor.withFlag .zero value) =
      (roundSum locate factor1 factor2 processor).withFlag .zero kept := by
  have sameCarry : ((processor.withFlag .zero value).act locate (.rotateMemory factor1)).carry =
      (processor.act locate (.rotateMemory factor1)).carry := rfl
  cases set : (processor.act locate (.rotateMemory factor1)).carry with
  | true =>
      simp only [roundSum, sameCarry, set, if_true]
      exact ⟨_, rfl⟩
  | false =>
      simp only [roundSum, sameCarry, set, Bool.false_eq_true, if_false]
      exact ⟨value, rfl⟩

/-- A round sets the zero flag and does not read it. -/
theorem round_withFlag_zero (processor : Processor) (value : Bool) :
    round locate factor1 factor2 low (processor.withFlag .zero value) =
      round locate factor1 factor2 low processor := by
  rcases roundSum_withFlag_zero locate factor1 factor2 processor value with ⟨kept, joined⟩
  unfold round
  rw [joined]
  rfl

/-- After a round only the memory can be told from the processor that the multiplier found. -/
theorem round_prepared (same : other.memory = processor.memory) :
    round locate factor1 factor2 low (prepared other) =
      round locate factor1 factor2 low (prepared processor) := by
  have differs : prepared other = (prepared processor).withFlag .zero other.zero := by
    rw [prepared, same]
    rfl
  rw [differs, round_withFlag_zero]

/-- The end of a run through the multiplier depends on nothing but the memory. -/
theorem final_eq_of_memory (code : program.instructions = instructions factor1 factor2 low)
    (same : other.memory = processor.memory)
    (runs : Runs program locate (.running 0) processor visited final)
    (others : Runs program locate (.running 0) other revisited ending) : ending = final := by
  rcases runs_prepared code runs with ⟨_, fromFirst⟩
  rcases runs_prepared code others with ⟨_, fromOther⟩
  rcases runs_round code fromFirst with ⟨_, afterRound⟩
  rcases runs_round code fromOther with ⟨_, otherAfterRound⟩
  rw [round_prepared same] at otherAfterRound
  exact afterRound.unique otherAfterRound

end Multiplier

namespace Interpretation.Knows

variable {I : Interpretation} {valuation : Nat -> Bool} {inputs : Inputs}

theorem memory_eq (knows : I.Knows valuation inputs) (place : UInt32) :
    (inputs.memory valuation place).toNat =
      if place = inputs.factor2Address.place valuation then inputs.factor2.value valuation
      else if place = inputs.factor1Address.place valuation then inputs.factor1.value valuation
      else inputs.memoryFill.value valuation := by
  rw [Inputs.memory, Function.update_apply, Function.update_apply]
  split
  · exact UInt8.toNat_ofNat_of_lt' (knows .factor2).lt
  · split
    · exact UInt8.toNat_ofNat_of_lt' (knows .factor1).lt
    · exact UInt8.toNat_ofNat_of_lt' (knows .memoryFill).lt

theorem evaluate {assignment : Assignment}
    (knows : (ofAssignment assignment).Knows valuation inputs) (name : InputName) :
    assignment.evaluateWord (inputs.get name).toWord =
      some ((inputs.get name).toWord.value valuation) := by
  apply (knows name).evaluateWord
  cases name <;> decide

theorem evaluate_eq_iff {assignment other : Assignment} {otherValuation : Nat -> Bool}
    {variant : Inputs} (knows : (ofAssignment assignment).Knows valuation inputs)
    (variantKnows : (ofAssignment other).Knows otherValuation variant) (name name' : InputName) :
    assignment.evaluateWord (inputs.get name).toWord =
        other.evaluateWord (variant.get name').toWord ↔
      (inputs.get name).toWord.value valuation =
        (variant.get name').toWord.value otherValuation := by
  rw [knows.evaluate, variantKnows.evaluate, Option.some.injEq]

/-- The processor in which the multiplier halts if the addresses differ. -/
theorem final_eq (knows : I.Knows valuation inputs) (differ : inputs.AddressesDiffer valuation)
    {final : Processor} (halts : inputs.HaltsIn valuation final) :
    final.x.toNat = 0 ∧ final.zero = true ∧
    final.a.toNat = inputs.factor1.value valuation * inputs.factor2.value valuation / 256 ∧
    final.carry = (inputs.memoryFill.value valuation).testBit 7 ∧
    ∀ place : UInt32, (final.memory place).toNat =
      if place.toNat = inputs.lowAddress.value valuation then
        inputs.factor1.value valuation * inputs.factor2.value valuation % 256
      else if place.toNat = inputs.factor2Address.value valuation then
        inputs.factor2.value valuation
      else if place.toNat = inputs.factor1Address.value valuation then
        2 * inputs.memoryFill.value valuation % 256
      else inputs.memoryFill.value valuation := by
  rcases halts with ⟨program, visited, code, runs⟩
  have apart := knows.apart differ
  have stage : Multiplier.Stage (Word.place valuation) inputs.factor1Address
      inputs.factor2Address inputs.lowAddress (inputs.memory valuation) 8 final :=
    Multiplier.stage_of_runs code apart runs
  have factors := knows.factors apart.factors
  have filled : (inputs.memory valuation (inputs.lowAddress.place valuation)).toNat =
      inputs.memoryFill.value valuation := by
    rw [knows.memory_eq, if_neg apart.secondLow.symm, if_neg apart.firstLow.symm]
  refine ⟨stage.x, Multiplier.zero_of_runs code (Nat.zero_le 10) runs, ?_, ?_, ?_⟩
  · rw [stage.a, Multiplier.accumulated, Nat.mod_eq_of_lt (UInt8.toNat_lt _), factors.1, factors.2]
    rfl
  · have moved : 2 * inputs.memoryFill.value valuation / 2 ^ 8 =
        inputs.memoryFill.value valuation / 2 ^ 7 := by
      rw [Nat.pow_succ', Nat.mul_div_mul_left _ _ (by decide)]
    rw [stage.carry, filled, moved, Nat.testBit_eq_decide_div_mod_eq]
  · intro place
    have atLow : place.toNat = inputs.lowAddress.value valuation ↔
        place = inputs.lowAddress.place valuation :=
      (knows .lowAddress).toNat_eq_value_iff place
    have atSecond : place.toNat = inputs.factor2Address.value valuation ↔
        place = inputs.factor2Address.place valuation :=
      (knows .factor2Address).toNat_eq_value_iff place
    have atFirst : place.toNat = inputs.factor1Address.value valuation ↔
        place = inputs.factor1Address.place valuation :=
      (knows .factor1Address).toNat_eq_value_iff place
    simp only [atLow, atSecond, atFirst]
    rw [stage.memory_eq, factors.1, factors.2, filled, knows.memory_eq]
    by_cases second : place = inputs.factor2Address.place valuation
    · rw [second, if_neg apart.factors.symm, if_pos rfl, if_pos rfl]
    · rw [if_neg second, if_neg second]
      by_cases first : place = inputs.factor1Address.place valuation
      · rw [if_pos first, if_pos first]
      · rw [if_neg first, if_neg first, if_neg first]

/-- The low word of the product is found at its address. -/
theorem low_eq (knows : I.Knows valuation inputs) (differ : inputs.AddressesDiffer valuation)
    {final : Processor} (halts : inputs.HaltsIn valuation final) :
    (final.memory (inputs.lowAddress.place valuation)).toNat =
      inputs.factor1.value valuation * inputs.factor2.value valuation % 256 := by
  rcases knows.final_eq differ halts with ⟨_, _, _, _, cells⟩
  rw [cells]
  exact if_pos (knows .lowAddress).toNat_place

end Interpretation.Knows

/-! ## Inputs with the same operands -/

/-- The input is an address or a factor, not a part of the machine around them. -/
def InputName.isOperand : InputName -> Bool
  | .factor1Address | .factor2Address | .lowAddress | .factor1 | .factor2 => true
  | .memoryBase | .x | .a | .memoryFill | .carry | .zero => false

namespace Inputs

/-- Inputs have the same addresses and factors, each under a valuation. -/
def SameOperands (inputs : Inputs) (valuation : Nat -> Bool) (variant : Inputs)
    (other : Nat -> Bool) : Prop :=
  ∀ name : InputName, name.isOperand ->
    (inputs.get name).toWord.value valuation = (variant.get name).toWord.value other

namespace SameOperands

variable {inputs variant : Inputs} {valuation other : Nat -> Bool}

theorem product_eq (same : inputs.SameOperands valuation variant other) :
    inputs.factor1.value valuation * inputs.factor2.value valuation =
      variant.factor1.value other * variant.factor2.value other :=
  congrArg₂ _ (same .factor1 rfl) (same .factor2 rfl)

theorem addressesDiffer (same : inputs.SameOperands valuation variant other)
    (differ : inputs.AddressesDiffer valuation) : variant.AddressesDiffer other := by
  have first : inputs.factor1Address.value valuation = variant.factor1Address.value other :=
    same .factor1Address rfl
  have second : inputs.factor2Address.value valuation = variant.factor2Address.value other :=
    same .factor2Address rfl
  have third : inputs.lowAddress.value valuation = variant.lowAddress.value other :=
    same .lowAddress rfl
  rwa [AddressesDiffer, first, second, third] at differ

/-- Inputs of the same operands halt in the same processor if they fill the memory alike. -/
theorem final_eq (same : inputs.SameOperands valuation variant other)
    (fill : inputs.memoryFill.value valuation = variant.memoryFill.value other)
    {final ending : Processor} (halts : inputs.HaltsIn valuation final)
    (variantHalts : variant.HaltsIn other ending) : ending = final := by
  have first : inputs.factor1Address.place valuation = variant.factor1Address.place other :=
    congrArg UInt32.ofNat (same .factor1Address rfl)
  have second : inputs.factor2Address.place valuation = variant.factor2Address.place other :=
    congrArg UInt32.ofNat (same .factor2Address rfl)
  have third : inputs.lowAddress.place valuation = variant.lowAddress.place other :=
    congrArg UInt32.ofNat (same .lowAddress rfl)
  have firstFactor : inputs.factor1.value valuation = variant.factor1.value other :=
    same .factor1 rfl
  have secondFactor : inputs.factor2.value valuation = variant.factor2.value other :=
    same .factor2 rfl
  have sameMemory : variant.memory other = inputs.memory valuation := by
    rw [memory, memory, first, second, firstFactor, secondFactor, fill]
  rcases halts with ⟨program, visited, code, runs⟩
  rcases variantHalts.relocate first second third code with ⟨_, movedRuns⟩
  exact Multiplier.final_eq_of_memory code sameMemory runs movedRuns

/-- Inputs of the same operands come to the same product if the addresses differ. -/
theorem result_eq {I J : Interpretation} (same : inputs.SameOperands valuation variant other)
    (knows : I.Knows valuation inputs) (variantKnows : J.Knows other variant)
    (differ : inputs.AddressesDiffer valuation) {final ending : Processor}
    (halts : inputs.HaltsIn valuation final) (variantHalts : variant.HaltsIn other ending) :
    final.a.toNat = ending.a.toNat ∧
      (final.memory (inputs.lowAddress.place valuation)).toNat =
        (ending.memory (variant.lowAddress.place other)).toNat := by
  have variantDiffer := same.addressesDiffer differ
  constructor
  · rw [(knows.final_eq differ halts).2.2.1, (variantKnows.final_eq variantDiffer variantHalts).2.2.1,
      same.product_eq]
  · rw [knows.low_eq differ halts, variantKnows.low_eq variantDiffer variantHalts, same.product_eq]

end SameOperands
end Inputs

/-! ## Verifications -/

namespace Verification

/-- The machine that a finished run leaves, under every assignment for which the three
addresses differ.  No place of its memory is left out. -/
theorem final_machine_evaluates (settings : Settings) (inputs : Inputs)
    (wellFormed : inputs.WellFormed) (assignment : Assignment)
    (covers : assignment.Covers inputs.support) :
    Yields (run settings inputs) fun run => ∃ first second target f g fill : Nat,
      assignment.evaluateWord inputs.factor1Address = some first ∧
      assignment.evaluateWord inputs.factor2Address = some second ∧
      assignment.evaluateWord inputs.lowAddress = some target ∧
      assignment.evaluateWord inputs.factor1 = some f ∧
      assignment.evaluateWord inputs.factor2 = some g ∧
      assignment.evaluateWord inputs.memoryFill = some fill ∧
      (first ≠ second ∧ first ≠ target ∧ second ≠ target ->
        ∃ final, run.execution.machine.Evaluates assignment final ∧
          final.x.toNat = 0 ∧ final.zero = true ∧ final.a.toNat = f * g / 256 ∧
          final.carry = fill.testBit 7 ∧
          ∀ place : UInt32, (final.memory place).toNat =
            if place.toNat = target then f * g % 256
            else if place.toNat = second then g
            else if place.toNat = first then 2 * fill % 256
            else fill) := by
  have knows := Interpretation.knows_of_covers wellFormed covers
  apply (knows.run_settles settings).mono
  rintro run ⟨rfl, final, settles⟩
  refine ⟨_, _, _, _, _, _, knows.evaluate .factor1Address, knows.evaluate .factor2Address,
    knows.evaluate .lowAddress, knows.evaluate .factor1, knows.evaluate .factor2,
    knows.evaluate .memoryFill, ?_⟩
  intro differ
  rcases settles.machine with ⟨strategy, represents⟩
  exact ⟨final, represents.evaluates, knows.final_eq differ settles.halts⟩

/-- The first factor is eleven, the second two hundred, and the memory is filled with ones. -/
theorem final_machine_evaluates_halfOpen :
    let assignment : Assignment := .ofList [(0, true), (1, true), (2, false)]
    halfOpen.WellFormed ∧ assignment.Covers halfOpen.support ∧
    ∃ finished final, ((run ⟨.array, 68⟩ halfOpen).run.run.run {}).1 = .ok (.ok finished) ∧
      finished.execution.machine.Evaluates assignment final ∧
      final.x.toNat = 0 ∧ final.zero = true ∧ final.a.toNat = 8 ∧ final.carry = true ∧
      (final.memory 19).toNat = 152 ∧ (final.memory 17).toNat = 200 ∧
      (final.memory 16).toNat = 254 ∧ (final.memory 0).toNat = 255 := by
  intro assignment
  have wellFormed := halfOpen_wellFormed
  have covers : assignment.Covers halfOpen.support := by
    decide
  rcases run_completes ⟨.array, 68⟩ wellFormed (by decide) {} with ⟨_, ended, finished, rfl, _⟩
  have evaluates := final_machine_evaluates ⟨.array, 68⟩ halfOpen wellFormed assignment covers
  rcases evaluates.of_ok ended with ⟨first, second, target, f, g, fill, firstEvaluates,
    secondEvaluates, targetEvaluates, fEvaluates, gEvaluates, fillEvaluates, leaves⟩
  rw [Assignment.evaluateWord_eq] at firstEvaluates secondEvaluates targetEvaluates
  rw [Assignment.evaluateWord_eq] at fEvaluates gEvaluates fillEvaluates
  have firstValue : some 16 = some first := firstEvaluates
  have secondValue : some 17 = some second := secondEvaluates
  have targetValue : some 19 = some target := targetEvaluates
  have fValue : some 11 = some f := fEvaluates
  have gValue : some 200 = some g := gEvaluates
  have fillValue : some 255 = some fill := fillEvaluates
  cases firstValue
  cases secondValue
  cases targetValue
  cases fValue
  cases gValue
  cases fillValue
  rcases leaves (by decide) with ⟨final, evaluated, x, zero, a, carry, cells⟩
  exact ⟨wellFormed, covers, finished, final, ended, evaluated, x, zero, a, carry, cells 19,
    cells 17, cells 16, cells 0⟩

/-- A finished run does not tell from which machine it started.  Runs of inputs that evaluate to
the same addresses and factors leave machines that evaluate alike in every part if the memory is
filled alike, and the same result words in any case if the addresses differ. -/
theorem initial_machine_invisible (settings settings' : Settings) (inputs variant : Inputs)
    (wellFormed : inputs.WellFormed) (variantWellFormed : variant.WellFormed)
    (assignment other : Assignment) (covers : assignment.Covers inputs.support)
    (otherCovers : other.Covers variant.support)
    (operands : ∀ name : InputName, name.isOperand ->
      assignment.evaluateWord (inputs.get name).toWord =
        other.evaluateWord (variant.get name).toWord) :
    Yields (run settings inputs) fun first => Yields (run settings' variant) fun second =>
      (assignment.evaluateWord inputs.memoryFill = other.evaluateWord variant.memoryFill ->
        ∃ final, first.execution.machine.Evaluates assignment final ∧
          second.execution.machine.Evaluates other final) ∧
      (assignment.evaluateWord inputs.factor1Address ≠
          assignment.evaluateWord inputs.factor2Address ∧
        assignment.evaluateWord inputs.factor1Address ≠
          assignment.evaluateWord inputs.lowAddress ∧
        assignment.evaluateWord inputs.factor2Address ≠
          assignment.evaluateWord inputs.lowAddress ->
        ∃ high low : Nat,
          assignment.evaluateWord first.high = some high ∧
          other.evaluateWord second.high = some high ∧
          assignment.evaluateWord first.low = some low ∧
          other.evaluateWord second.low = some low) := by
  have knows := Interpretation.knows_of_covers wellFormed covers
  have variantKnows := Interpretation.knows_of_covers variantWellFormed otherCovers
  have same : inputs.SameOperands assignment.valuation variant other.valuation :=
    fun name operand => (knows.evaluate_eq_iff variantKnows name name).mp (operands name operand)
  apply (knows.run_settles settings).mono
  rintro first ⟨rfl, final, settles⟩
  apply (variantKnows.run_settles settings').mono
  rintro second ⟨rfl, ending, variantSettles⟩
  constructor
  · intro sameFill
    have fill := (knows.evaluate_eq_iff variantKnows .memoryFill .memoryFill).mp sameFill
    have equal := same.final_eq fill settles.halts variantSettles.halts
    subst equal
    rcases settles.machine with ⟨_, represents⟩
    rcases variantSettles.machine with ⟨_, variantRepresents⟩
    exact ⟨ending, represents.evaluates, variantRepresents.evaluates⟩
  · rintro ⟨factors, firstLow, secondLow⟩
    have differ : first.inputs.AddressesDiffer assignment.valuation :=
      ⟨mt (knows.evaluate_eq_iff knows .factor1Address .factor2Address).mpr factors,
        mt (knows.evaluate_eq_iff knows .factor1Address .lowAddress).mpr firstLow,
        mt (knows.evaluate_eq_iff knows .factor2Address .lowAddress).mpr secondLow⟩
    rcases same.result_eq knows variantKnows differ settles.halts variantSettles.halts with
      ⟨sameHigh, sameLow⟩
    have variantHigh := variantSettles.high
    have variantLow := variantSettles.low
    rw [← sameHigh] at variantHigh
    rw [← sameLow] at variantLow
    exact ⟨_, _, settles.high.evaluate_word, variantHigh.evaluate_word,
      settles.low.evaluate_word, variantLow.evaluate_word⟩

/-- The inputs of `halfOpen` in another machine, whose filling is open. -/
def halfOpenElsewhere : Inputs :=
  { halfOpen with
    memoryBase := .constant 7 8
    x := .constant 1 8
    a := .constant 2 8
    memoryFill := ⟨List.replicate 8 (.var 3)⟩
    carry := .one
    zero := .var 3 }

/-- Where the open address is that of the second factor and the memory is filled alike, the final
machines agree.  Where it is apart and the memory is not filled alike, the result words do. -/
theorem initial_machine_invisible_halfOpen :
    let aliased : Assignment := .ofList [(0, true), (1, false), (2, false), (3, true)]
    let apart : Assignment := .ofList [(0, true), (1, true), (2, false), (3, false)]
    halfOpen.WellFormed ∧ halfOpenElsewhere.WellFormed ∧
    aliased.Covers (halfOpen.support ++ halfOpenElsewhere.support) ∧
    apart.Covers (halfOpen.support ++ halfOpenElsewhere.support) ∧
    ∃ first second, ((run ⟨.dense, 68⟩ halfOpen).run.run.run {}).1 = .ok (.ok first) ∧
      ((run ⟨.array, 68⟩ halfOpenElsewhere).run.run.run {}).1 = .ok (.ok second) ∧
      (∃ final, first.execution.machine.Evaluates aliased final ∧
        second.execution.machine.Evaluates aliased final) ∧
      apart.evaluateWord halfOpen.memoryFill ≠ apart.evaluateWord halfOpenElsewhere.memoryFill ∧
      ∃ high low : Nat,
        apart.evaluateWord first.high = some high ∧ apart.evaluateWord second.high = some high ∧
        apart.evaluateWord first.low = some low ∧ apart.evaluateWord second.low = some low := by
  intro aliased apart
  have wellFormed := halfOpen_wellFormed
  have elsewhereWellFormed : halfOpenElsewhere.WellFormed := by
    intro name
    cases name <;> rfl
  have aliasedCovers : aliased.Covers (halfOpen.support ++ halfOpenElsewhere.support) := by
    decide
  have apartCovers : apart.Covers (halfOpen.support ++ halfOpenElsewhere.support) := by
    decide
  have operands : ∀ (assignment : Assignment) (name : InputName), name.isOperand ->
      assignment.evaluateWord (halfOpen.get name).toWord =
        assignment.evaluateWord (halfOpenElsewhere.get name).toWord := by
    intro assignment name operand
    cases name <;> first | rfl | cases operand
  rcases run_completes ⟨.dense, 68⟩ wellFormed (by decide) {} with ⟨_, ended, first, rfl, _⟩
  rcases run_completes ⟨.array, 68⟩ elsewhereWellFormed (by decide) {} with
    ⟨_, elsewhereEnded, second, rfl, _⟩
  have atAliased := initial_machine_invisible ⟨.dense, 68⟩ ⟨.array, 68⟩ halfOpen halfOpenElsewhere
    wellFormed elsewhereWellFormed aliased aliased (Assignment.covers_append.mp aliasedCovers).1
    (Assignment.covers_append.mp aliasedCovers).2 (operands aliased)
  have atApart := initial_machine_invisible ⟨.dense, 68⟩ ⟨.array, 68⟩ halfOpen halfOpenElsewhere
    wellFormed elsewhereWellFormed apart apart (Assignment.covers_append.mp apartCovers).1
    (Assignment.covers_append.mp apartCovers).2 (operands apart)
  have sameFill : aliased.evaluateWord halfOpen.memoryFill =
      aliased.evaluateWord halfOpenElsewhere.memoryFill := by
    rw [Assignment.evaluateWord_eq, Assignment.evaluateWord_eq]
    rfl
  refine ⟨wellFormed, elsewhereWellFormed, aliasedCovers, apartCovers, first, second, ended,
    elsewhereEnded, ((atAliased.of_ok ended).of_ok elsewhereEnded).1 sameFill, ?_,
    ((atApart.of_ok ended).of_ok elsewhereEnded).2 ?_⟩
  · rw [Assignment.evaluateWord_eq, Assignment.evaluateWord_eq]
    decide
  · rw [Assignment.evaluateWord_eq, Assignment.evaluateWord_eq, Assignment.evaluateWord_eq]
    decide

end Verification
end SymbolicMachine
