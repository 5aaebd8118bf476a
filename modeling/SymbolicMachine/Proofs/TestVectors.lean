import SymbolicMachine.Proofs.FinalMachine
import SymbolicMachine.Verification.TestVector

namespace SymbolicMachine

/-!
# Test vectors are complete

A test vector needs a number for each input of a run and for both result words.  An assignment
that leaves variables open may still decide every input, since a conjunction is decided by one
false operand.  Then it decides the result words as well: whatever the run has built over the
inputs, each part of it has a value if the inputs have one, after simplification, through memory
and across forks and joins.  So a run has a test vector under an assignment just if each of its
inputs has a number, and where the addresses differ the vector is a case of multiplication.
-/

variable {assignment : Assignment}

/-! ## Numbers of signals -/

theorem Word.eval?_ofBit (assignment : Assignment) (bit : Bit) :
    (Word.ofBit bit).eval? assignment = (bit.eval? assignment).map Bool.toNat := by
  have narrow : (Word.ofBit bit).width ≤ Word.knownBits := by
    rw [Word.width_ofBit]
    decide
  rw [Word.eval?, Word.valueBy?, if_pos narrow]
  cases read : bit.eval? assignment <;> simp [Word.ofBit, Word.ofBools, read]

theorem Evaluator.answers_signal (assignment : Assignment) (signal : Signal) :
    Answers Wire.source assignment (Evaluator.signal signal) (signal.toWord.eval? assignment) := by
  cases signal with
  | bit bit =>
      rw [Signal.toWord, Word.eval?_ofBit]
      exact (answers_bit assignment bit).bind (.pure _)
  | word word => exact answers_word assignment word

/-- What an evaluator that has visited nothing answers for the number of a signal. -/
def Assignment.evaluateSignal (assignment : Assignment) (signal : Signal) : Option Nat :=
  ((Evaluator.signal signal).run (.new assignment)).1

theorem Assignment.evaluateSignal_eq (assignment : Assignment) (signal : Signal) :
    assignment.evaluateSignal signal = signal.toWord.eval? assignment :=
  (Evaluator.answers_signal assignment signal _ (Evaluator.faithful_new Wire.source assignment)).1

namespace TestVector

variable {run : Verification.Run}

/-! ## Tables of numbers -/

/-- The row of a named signal in a table of numbers, if the signal has a number. -/
def row? (assignment : Assignment) (named : String × Signal) : Option (String × Nat) :=
  (assignment.evaluateSignal named.2).map (Prod.mk named.1)

theorem row?_eq_some {signal : Signal} {number : Nat} (name : String)
    (evaluates : assignment.evaluateSignal signal = some number) :
    row? assignment (name, signal) = some (name, number) := by
  rw [row?, evaluates, Option.map_some]

open Evaluator in
theorem answers_numbers (assignment : Assignment) (signals : List (String × Signal)) :
    Answers Wire.source assignment (numbers signals) (signals.mapM (row? assignment)) := by
  induction signals with
  | nil => exact .pure _
  | cons named rest ih =>
      have first := answers_signal assignment named.2
      rw [← Assignment.evaluateSignal_eq] at first
      refine first.bind ?_
      rw [mapM_cons_eq_bind_map, row?]
      cases assignment.evaluateSignal named.2 with
      | none => exact .pure _
      | some number => exact ih.bind (.pure _)

/-- A vector consists of the tables of both kinds of signals. -/
theorem ofRun?_eq (run : Verification.Run) (assignment : Assignment) :
    ofRun? run assignment = ((inputSignals run).mapM (row? assignment)).bind fun inputs =>
      ((outputSignals run).mapM (row? assignment)).map fun outputs => { inputs, outputs } := by
  have inputsAnswered := answers_numbers assignment (inputSignals run)
  have outputsAnswered := answers_numbers assignment (outputSignals run)
  refine (inputsAnswered.bind ?_ _ (Evaluator.faithful_new Wire.source assignment)).1
  cases (inputSignals run).mapM (row? assignment) with
  | none => exact .pure _
  | some inputs => exact outputsAnswered.bind (.pure _)

/-- Whatever has a row in a table has a number. -/
theorem isSome_of_mapM {signals : List (String × Signal)} {table : List (String × Nat)}
    (found : signals.mapM (row? assignment) = some table) {named : String × Signal}
    (listed : named ∈ signals) : (assignment.evaluateSignal named.2).isSome := by
  have pairs := mapM_eq_some_iff.mp found
  rcases exists_related pairs listed with ⟨row, _, entered⟩
  rcases Option.map_eq_some_iff.mp entered with ⟨number, evaluates, _⟩
  rw [evaluates, Option.isSome_some]

theorem inputSignals_eq (run : Verification.Run) :
    inputSignals run = InputName.all.map fun name => (name.text, run.inputs.get name) :=
  List.map_map

/-- A run that has a vector has a number for each input. -/
theorem isSome_input_of_isSome (extracted : (ofRun? run assignment).isSome) (name : InputName) :
    (assignment.evaluateSignal (run.inputs.get name)).isSome := by
  rcases Option.isSome_iff_exists.mp extracted with ⟨vector, found⟩
  rw [ofRun?_eq] at found
  rcases Option.bind_eq_some_iff.mp found with ⟨table, entered, _⟩
  have listed : (name.text, run.inputs.get name) ∈ inputSignals run := by
    rw [inputSignals_eq]
    exact List.mem_map.mpr ⟨name, InputName.mem_all name, rfl⟩
  exact isSome_of_mapM entered listed

/-- The vector of a run whose inputs and result words have numbers. -/
theorem ofRun?_eq_some {number : InputName -> Nat} {high low : Nat}
    (inputs : ∀ name, assignment.evaluateSignal (run.inputs.get name) = some (number name))
    (highEvaluates : assignment.evaluateWord run.high = some high)
    (lowEvaluates : assignment.evaluateWord run.low = some low) :
    ofRun? run assignment = some
      { inputs := InputName.all.map fun name => (name.text, number name)
        outputs := [("high", high), ("low", low)] } := by
  have inputTable : (inputSignals run).mapM (row? assignment) =
      some (InputName.all.map fun name => (name.text, number name)) := by
    rw [inputSignals_eq, mapM_eq_some_iff, List.forall₂_map_left_iff,
      List.forall₂_map_right_iff, List.forall₂_same]
    intro name _
    exact row?_eq_some name.text (inputs name)
  have outputTable : (outputSignals run).mapM (row? assignment) =
      some [("high", high), ("low", low)] := by
    apply mapM_eq_some_iff.mpr
    exact .cons (row?_eq_some "high" highEvaluates)
      (.cons (row?_eq_some "low" lowEvaluates) .nil)
  rw [ofRun?_eq, inputTable, outputTable]
  rfl

/-- Every input is found under its name. -/
theorem input?_text {vector : TestVector} {number : InputName -> Nat}
    (lists : vector.inputs = InputName.all.map fun name => (name.text, number name))
    (name : InputName) : vector.input? name.text = some (number name) := by
  rw [input?, lists]
  cases name <;> rfl

/-- The result words make up one number. -/
theorem product?_eq {vector : TestVector} {high low : Nat}
    (lists : vector.outputs = [("high", high), ("low", low)]) (bound : low < 2 ^ wordBits) :
    vector.product? = some (256 * high + low) := by
  have joined : (high <<< wordBits) ||| low = 256 * high + low := by
    rw [← Nat.shiftLeft_add_eq_or_of_lt bound, Nat.shiftLeft_eq, Nat.mul_comm]
    rfl
  rw [← joined, product?, output?, output?, lists]
  rfl

end TestVector

/-! ## Runs -/

/-- An assignment under which every input has a number knows the inputs, whatever variables it
leaves open. -/
theorem Interpretation.knows_of_evaluates {inputs : Inputs} (wellFormed : inputs.WellFormed)
    (evaluates : ∀ name, (assignment.evaluateSignal (inputs.get name)).isSome) :
    (ofAssignment assignment).Knows assignment.valuation inputs := by
  intro name
  rcases Option.isSome_iff_exists.mp (evaluates name) with ⟨number, found⟩
  rw [Assignment.evaluateSignal_eq, ← Assignment.evaluateWord_eq] at found
  have narrow : (inputs.get name).toWord.width ≤ Word.knownBits := by
    rw [wellFormed name]
    cases name <;> decide
  have denotes := (evaluateWord_eq_some_iff narrow).mp found
  rw [wellFormed name] at denotes
  rwa [← denotes.eq_value assignment.extends_valuation]

theorem Interpretation.Knows.evaluateSignal {inputs : Inputs} {valuation : Nat -> Bool}
    (knows : (ofAssignment assignment).Knows valuation inputs) (name : InputName) :
    assignment.evaluateSignal (inputs.get name) =
      some ((inputs.get name).toWord.value valuation) := by
  rw [Assignment.evaluateSignal_eq, ← Assignment.evaluateWord_eq]
  exact knows.evaluate name

/-- Where the addresses differ, the result words of a settled run make up the product. -/
theorem Interpretation.Settles.product_eq {I : Interpretation} {valuation : Nat -> Bool}
    {run : Verification.Run} {final : Processor} (settles : I.Settles valuation run final)
    (knows : I.Knows valuation run.inputs) (differ : run.inputs.AddressesDiffer valuation) :
    256 * final.a.toNat + (final.memory (run.inputs.lowAddress.place valuation)).toNat =
      run.inputs.factor1.value valuation * run.inputs.factor2.value valuation := by
  have high := (knows.final_eq differ settles.halts).2.2.1
  have low := knows.low_eq differ settles.halts
  rw [high, low, Nat.div_add_mod]

namespace Verification

/-- Test vectors are complete and correct.  Under any assignment, whatever it leaves open, a
finished run has a vector just if each input has a number.  The vector lists the inputs in order
and the result words, each with its number, and where the three addresses differ its product is
that of the factors it lists. -/
theorem test_vectors_complete (settings : Settings) (inputs : Inputs)
    (wellFormed : inputs.WellFormed) (assignment : Assignment) :
    Yields (run settings inputs) fun run =>
      ((TestVector.ofRun? run assignment).isSome ↔
        ∀ name, (assignment.evaluateSignal (inputs.get name)).isSome) ∧
      ∀ vector, TestVector.ofRun? run assignment = some vector ->
        ∃ (number : InputName -> Nat) (high low : Nat),
          (∀ name, assignment.evaluateSignal (inputs.get name) = some (number name)) ∧
          assignment.evaluateWord run.high = some high ∧
          assignment.evaluateWord run.low = some low ∧
          vector.inputs = InputName.all.map (fun name => (name.text, number name)) ∧
          vector.outputs = [("high", high), ("low", low)] ∧
          (number .factor1Address ≠ number .factor2Address ∧
            number .factor1Address ≠ number .lowAddress ∧
            number .factor2Address ≠ number .lowAddress ->
            ∃ f g, vector.input? "factor1" = some f ∧ vector.input? "factor2" = some g ∧
              vector.product? = some (f * g)) := by
  by_cases evaluates : ∀ name, (assignment.evaluateSignal (inputs.get name)).isSome
  · have knows := Interpretation.knows_of_evaluates wellFormed evaluates
    apply (knows.run_settles settings).mono
    rintro run ⟨rfl, final, settles⟩
    have highEvaluates := settles.high.evaluate_word
    have lowEvaluates := settles.low.evaluate_word
    have extracted := TestVector.ofRun?_eq_some knows.evaluateSignal highEvaluates lowEvaluates
    refine ⟨iff_of_true (Option.isSome_of_eq_some extracted) evaluates, ?_⟩
    intro vector found
    have same := Option.some.inj (found.symm.trans extracted)
    have inputsListed : vector.inputs = InputName.all.map fun name =>
        (name.text, (run.inputs.get name).toWord.value assignment.valuation) :=
      congrArg TestVector.inputs same
    have outputsListed := congrArg TestVector.outputs same
    refine ⟨_, _, _, knows.evaluateSignal, highEvaluates, lowEvaluates, inputsListed,
      outputsListed, ?_⟩
    intro differ
    have factor1 := TestVector.input?_text inputsListed .factor1
    have factor2 := TestVector.input?_text inputsListed .factor2
    refine ⟨_, _, factor1, factor2, ?_⟩
    rw [TestVector.product?_eq outputsListed settles.low.lt]
    exact congrArg some (settles.product_eq knows differ)
  · have knows := Interpretation.knows_of_valuation wellFormed fun _ => false
    apply (knows.run_settles settings).mono
    rintro run ⟨rfl, _⟩
    have notExtracted : ¬ (TestVector.ofRun? run assignment).isSome := by
      intro extracted
      exact evaluates (TestVector.isSome_input_of_isSome extracted)
    refine ⟨iff_of_false notExtracted evaluates, ?_⟩
    intro vector found
    exact absurd (Option.isSome_of_eq_some found) notExtracted

/-- The inputs of `halfOpen` with a mask on the highest bit of the first factor. -/
def masked : Inputs :=
  { halfOpen with
    factor1 := ⟨[.var 0, .one, .zero, .one, .zero, .zero, .zero, .andGate 0 (.var 9) 1 (.var 3)]⟩ }

/-- Where the mask is false, what it hides may stay open, and the run is the case of eleven times
two hundred.  Where only the lowest bit of the factor is assigned, there is no vector. -/
theorem test_vectors_complete_masked :
    let assignment : Assignment := .ofList [(0, true), (1, true), (2, false), (3, false)]
    masked.WellFormed ∧ ¬ assignment.Covers masked.support ∧
    ∃ finished vector, ((run ⟨.array, 68⟩ masked).run.run.run {}).1 = .ok (.ok finished) ∧
      TestVector.ofRun? finished assignment = some vector ∧
      vector.input? "factor1" = some 11 ∧ vector.input? "factor2" = some 200 ∧
      vector.product? = some 2200 ∧
      TestVector.ofRun? finished (.ofList [(0, true)]) = none := by
  intro assignment
  have wellFormed : masked.WellFormed := by
    intro name
    cases name <;> rfl
  have uncovered : ¬ assignment.Covers masked.support := by
    decide
  have evaluates : ∀ name, (assignment.evaluateSignal (masked.get name)).isSome := by
    intro name
    rw [Assignment.evaluateSignal_eq]
    cases name <;> rfl
  rcases run_completes ⟨.array, 68⟩ wellFormed (by decide) {} with ⟨_, ended, finished, rfl, _⟩
  have complete := fun assignment =>
    (test_vectors_complete ⟨.array, 68⟩ masked wellFormed assignment).of_ok ended
  rcases Option.isSome_iff_exists.mp ((complete assignment).1.mpr evaluates) with ⟨vector, found⟩
  rcases (complete assignment).2 vector found with
    ⟨number, high, low, numbers, _, _, listed, _, multiplies⟩
  have valued : ∀ {name n}, (masked.get name).toWord.eval? assignment = some n ->
      number name = n := by
    intro name n read
    rw [← Assignment.evaluateSignal_eq, numbers] at read
    exact Option.some.inj read
  have first : number .factor1Address = 16 := valued rfl
  have second : number .factor2Address = 17 := valued rfl
  have target : number .lowAddress = 19 := valued rfl
  have factor1 : vector.input? "factor1" = some 11 :=
    (TestVector.input?_text listed .factor1).trans (congrArg some (valued rfl))
  have factor2 : vector.input? "factor2" = some 200 :=
    (TestVector.input?_text listed .factor2).trans (congrArg some (valued rfl))
  rw [first, second, target] at multiplies
  rcases multiplies (by decide) with ⟨f, g, listedFirst, listedSecond, product⟩
  cases factor1.symm.trans listedFirst
  cases factor2.symm.trans listedSecond
  refine ⟨wellFormed, uncovered, finished, vector, ended, found, factor1, factor2, product, ?_⟩
  apply Option.not_isSome_iff_eq_none.mp
  intro extracted
  have lowEvaluates := (complete _).1.mp extracted .lowAddress
  rw [Assignment.evaluateSignal_eq] at lowEvaluates
  cases lowEvaluates

end Verification
end SymbolicMachine
