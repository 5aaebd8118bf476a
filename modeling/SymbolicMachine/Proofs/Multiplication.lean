import SymbolicMachine.Proofs.ObligationMeaning
import SymbolicMachine.Proofs.VerificationRun

namespace SymbolicMachine

/-!
# The multiplier multiplies

Where the three addresses differ, a run of the multiplier leaves the product of the
factors in its result words.  Where they do not, nothing is promised.  The obligation says
just that, so it holds of every finished run, whatever the inputs are made of and under
every assignment, and a decider that only refutes what is false cannot refute it.
-/

namespace Interpretation

variable {I : Interpretation} {valuation : Nat -> Bool} {inputs : Inputs}

/-! ## Results of a run -/

theorem Denotes.toNat_place {word : Word}
    (denotes : I.Denotes addressBits word (word.value valuation)) :
    (word.place valuation).toNat = word.value valuation :=
  UInt32.toNat_ofNat_of_lt' denotes.lt

theorem Denotes.toNat_eq_value_iff {word : Word}
    (denotes : I.Denotes addressBits word (word.value valuation)) (place : UInt32) :
    place.toNat = word.value valuation ↔ place = word.place valuation := by
  rw [← denotes.toNat_place, UInt32.toNat_inj]

theorem Denotes.place_ne {first second : Word}
    (firstDenotes : I.Denotes addressBits first (first.value valuation))
    (secondDenotes : I.Denotes addressBits second (second.value valuation))
    (different : first.value valuation ≠ second.value valuation) :
    first.place valuation ≠ second.place valuation := by
  intro same
  apply different
  rw [← firstDenotes.toNat_place, ← secondDenotes.toNat_place, same]

namespace Knows

/-- Addresses of different values are located in different places. -/
theorem apart (knows : I.Knows valuation inputs) (differ : inputs.AddressesDiffer valuation) :
    Multiplier.Apart (Word.place valuation) inputs.factor1Address inputs.factor2Address
      inputs.lowAddress where
  factors := (knows .factor1Address).place_ne (knows .factor2Address) differ.1
  firstLow := (knows .factor1Address).place_ne (knows .lowAddress) differ.2.1
  secondLow := (knows .factor2Address).place_ne (knows .lowAddress) differ.2.2

/-- The memory holds the factors where the inputs place them, if they place them apart. -/
theorem factors (knows : I.Knows valuation inputs)
    (apart : inputs.factor1Address.place valuation ≠ inputs.factor2Address.place valuation) :
    (inputs.memory valuation (inputs.factor1Address.place valuation)).toNat =
        inputs.factor1.value valuation ∧
      (inputs.memory valuation (inputs.factor2Address.place valuation)).toNat =
        inputs.factor2.value valuation := by
  rw [Inputs.memory, Function.update_of_ne apart, Function.update_self, Function.update_self]
  exact ⟨UInt8.toNat_ofNat_of_lt' (knows .factor1).lt, UInt8.toNat_ofNat_of_lt' (knows .factor2).lt⟩

/-- The result words of a finished run denote the product of the factors where the
addresses differ, and the obligation holds. -/
theorem run_multiplies (knows : I.Knows valuation inputs) (settings : Settings) :
    Yields (Verification.run settings inputs) fun run => ∃ high low,
      I.Denotes wordBits run.high high ∧ I.Denotes wordBits run.low low ∧
      (inputs.AddressesDiffer valuation ->
        256 * high + low = inputs.factor1.value valuation * inputs.factor2.value valuation) ∧
      Succeeds run.obligation fun obligation =>
        Gives obligation.statement fun statement => I.Reads statement true := by
  refine (knows.run settings).mono ?_
  rintro run ⟨sameInputs, code, visited, final, runs, _, highDenotes, lowDenotes⟩
  have multiplies : inputs.AddressesDiffer valuation ->
      256 * final.a.toNat + (final.memory (inputs.lowAddress.place valuation)).toNat =
        inputs.factor1.value valuation * inputs.factor2.value valuation := by
    intro differ
    have apart := knows.apart differ
    have factors := knows.factors apart.factors
    rw [← factors.1, ← factors.2]
    exact Multiplier.product_of_runs code apart runs
  refine ⟨_, _, highDenotes, lowDenotes, multiplies, ?_⟩
  rw [Verification.Run.obligation, sameInputs]
  exact obligation_holds (knows .factor1Address) (knows .factor2Address) (knows .lowAddress)
    (knows .factor1) (knows .factor2) highDenotes lowDenotes multiplies

end Knows
end Interpretation

/-! ## Verification -/

/-- A decider refutes a bit only by an assignment under which it is false. -/
def Decider.Truthful (decider : Decider) : Prop :=
  ∀ bit assignment, decider bit = .ok (.counterexample assignment) ->
    assignment.evaluate bit = some false

/-- Even an assignment that leaves variables open refutes only what can be false. -/
theorem Decider.Truthful.not_refuted {decider : Decider} (truthful : decider.Truthful) {bit : Bit}
    (valid : ∀ valuation, bit.eval valuation = true) {assignment : Assignment} :
    decider bit ≠ .ok (.counterexample assignment) := by
  intro refuted
  have falsified := truthful bit assignment refuted
  rw [Assignment.evaluate_eq] at falsified
  have fails := Bit.eval_of_eval? assignment.extends_valuation falsified
  rw [valid] at fails
  cases fails

theorem Decider.sampling_truthful (samples : List Assignment) :
    (Decider.sampling samples).Truthful := by
  intro bit assignment refuted
  induction samples with
  | nil => cases refuted
  | cons sample rest ih =>
      unfold Decider.sampling at refuted
      split at refuted
      · exact ih refuted
      · next found =>
          cases refuted
          exact found
      · cases refuted

namespace Verification

open Interpretation in
theorem verify_not_refuted (settings : Settings) {inputs : Inputs}
    (wellFormed : inputs.WellFormed) {decider : Decider} (truthful : decider.Truthful) :
    Yields (verify settings inputs decider) fun verdict =>
      ∀ assignment, verdict ≠ .counterexample assignment := by
  apply Yields.bind (Yields.all fun valuation =>
    (knows_of_valuation wellFormed valuation).run_multiplies settings)
  intro run multiplies
  have holds : Succeeds run.obligation fun obligation => ∀ valuation,
      Gives obligation.statement fun statement => (ofValuation valuation).Reads statement true := by
    apply Succeeds.all
    intro valuation
    rcases multiplies valuation with ⟨_, _, _, _, _, obligation⟩
    exact obligation
  apply Yields.lift_bind holds
  intro obligation statementHolds
  apply Yields.report_if_bind
  have always : Gives obligation.statement fun statement => ∀ valuation,
      (ofValuation valuation).Reads statement true :=
    fun session valuation => statementHolds valuation session
  apply Yields.lift_bind (Succeeds.lift always)
  intro statement holds
  cases answer : decider statement with
  | error cause => exact .throw
  | ok verdict =>
      apply Yields.report_bind
      apply Yields.pure
      rintro assignment rfl
      exact truthful.not_refuted (fun valuation => Option.some.inj (holds valuation)) answer

/-- The multiplier multiplies.  Under every assignment of the variables in the inputs a
finished run has result words that make up the product of the factors if the three
addresses differ, and its obligation holds in any case.  A verification with a truthful
decider therefore finds no counterexample. -/
theorem result_is_product (settings : Settings) (inputs : Inputs)
    (wellFormed : inputs.WellFormed) :
    (∀ assignment : Assignment, assignment.Covers inputs.support ->
      Yields (run settings inputs) fun run =>
        (∃ first second target f g high low : Nat,
          assignment.evaluateWord inputs.factor1Address = some first ∧
          assignment.evaluateWord inputs.factor2Address = some second ∧
          assignment.evaluateWord inputs.lowAddress = some target ∧
          assignment.evaluateWord inputs.factor1 = some f ∧
          assignment.evaluateWord inputs.factor2 = some g ∧
          assignment.evaluateWord run.high = some high ∧
          assignment.evaluateWord run.low = some low ∧
          (first ≠ second ∧ first ≠ target ∧ second ≠ target -> 256 * high + low = f * g)) ∧
        Succeeds run.obligation fun obligation =>
          Gives obligation.statement fun statement =>
            assignment.evaluate statement = some true) ∧
    ∀ decider : Decider, decider.Truthful ->
      Yields (verify settings inputs decider) fun verdict =>
        ∀ assignment, verdict ≠ .counterexample assignment := by
  constructor
  · intro assignment covers
    have knows := Interpretation.knows_of_covers wellFormed covers
    apply (knows.run_multiplies settings).mono
    rintro run ⟨high, low, highDenotes, lowDenotes, multiplies, obligation⟩
    constructor
    · exact ⟨_, _, _, _, _, high, low, (knows .factor1Address).evaluate_address,
        (knows .factor2Address).evaluate_address, (knows .lowAddress).evaluate_address,
        (knows .factor1).evaluate_word, (knows .factor2).evaluate_word,
        highDenotes.evaluate_word, lowDenotes.evaluate_word, multiplies⟩
    · apply obligation.mono
      intro obligation holds
      refine holds.mono ?_
      intro statement reads
      rw [Assignment.evaluate_eq]
      exact reads
  · intro decider truthful
    exact verify_not_refuted settings wellFormed truthful

/-- Inputs whose address for the low word may be that of the second factor. -/
def halfOpen : Inputs where
  memoryBase := .constant 0 8
  factor1Address := .constant 16 32
  factor1 := ⟨[.var 0, .one, .zero, .one, .zero, .zero, .zero, .zero]⟩
  factor2Address := .constant 17 32
  factor2 := .constant 200 8
  lowAddress := ⟨[.one, .var 1, .zero, .zero, .one] ++ List.replicate 27 .zero⟩
  x := .zero 8
  a := .zero 8
  memoryFill := .constant 255 8
  carry := .var 2
  zero := .zero

theorem halfOpen_wellFormed : halfOpen.WellFormed := by
  intro name
  cases name <;> rfl

/-- The run forks on the open bit of the first factor and ends.  Where the open addresses
differ and the open bit is set, its result is eleven times two hundred. -/
theorem result_is_product_halfOpen :
    let assignment : Assignment := .ofList [(0, true), (1, true), (2, false)]
    let decider : Decider := .sampling [assignment]
    halfOpen.WellFormed ∧ assignment.Covers halfOpen.support ∧ decider.Truthful ∧
    (∃ finished high low, ((run {} halfOpen).run.run.run {}).1 = .ok (.ok finished) ∧
      assignment.evaluateWord finished.high = some high ∧
      assignment.evaluateWord finished.low = some low ∧ 256 * high + low = 11 * 200) ∧
    Yields (verify {} halfOpen decider) fun verdict =>
      ∀ refutation, verdict ≠ .counterexample refutation := by
  intro assignment decider
  have wellFormed := halfOpen_wellFormed
  have covers : assignment.Covers halfOpen.support := by
    decide
  have truthful : decider.Truthful := Decider.sampling_truthful _
  have completes : (((run {} halfOpen).run.run.run {}).1.toOption.bind Except.toOption).isSome =
      true := by
    decide +kernel
  have multiplies := result_is_product {} halfOpen wellFormed
  refine ⟨wellFormed, covers, truthful, ?_, multiplies.2 decider truthful⟩
  rcases multiplies.1 assignment covers {} with ⟨outcome, ended, result⟩
  rw [ended] at completes ⊢
  cases outcome with
  | error cause => cases completes
  | ok finished =>
      rcases result finished rfl with ⟨⟨first, second, target, f, g, high, low, firstEvaluates,
        secondEvaluates, targetEvaluates, fEvaluates, gEvaluates, highEvaluates, lowEvaluates,
        product⟩, _⟩
      rw [Assignment.evaluateWord_eq] at firstEvaluates secondEvaluates targetEvaluates
      rw [Assignment.evaluateWord_eq] at fEvaluates gEvaluates
      have firstValue : some 16 = some first := firstEvaluates
      have secondValue : some 17 = some second := secondEvaluates
      have targetValue : some 19 = some target := targetEvaluates
      have fValue : some 11 = some f := fEvaluates
      have gValue : some 200 = some g := gEvaluates
      cases firstValue
      cases secondValue
      cases targetValue
      cases fValue
      cases gValue
      exact ⟨finished, high, low, rfl, highEvaluates, lowEvaluates, product (by decide)⟩

end Verification
end SymbolicMachine
