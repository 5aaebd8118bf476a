import SymbolicMachine.Proofs.Arithmetic
import SymbolicMachine.Verification.Obligation

namespace SymbolicMachine

/-!
# What the obligation says

The obligation is a circuit: factors and result words are widened, one result word is shifted,
and sums, a product, comparisons and an implication are built over them, each simplified on
the way.  What it says is a matter of numbers.  The precondition holds where the three
addresses differ, and the conclusion where the result is the product of the factors, as natural
numbers: a word of twice the width holds both, so nothing is lost.  The statement fails where
the addresses differ and the result is another number, and nowhere else.
-/

namespace Interpretation

variable {I : Interpretation} {inputs : Inputs}

theorem reads_distinctAddresses {width p q r : Nat}
    (firstDenotes : I.Denotes width inputs.factor1Address p)
    (secondDenotes : I.Denotes width inputs.factor2Address q)
    (lowDenotes : I.Denotes width inputs.lowAddress r) :
    Succeeds (Obligation.distinctAddresses inputs) fun result =>
      I.Reads result (decide (p ≠ q ∧ p ≠ r ∧ q ≠ r)) := by
  apply (firstDenotes.differs secondDenotes).bind
  intro factorsDiffer factorsRead
  apply (firstDenotes.differs lowDenotes).bind
  intro firstDiffers firstRead
  apply (Succeeds.lift (factorsRead.and firstRead)).bind
  intro both bothRead
  apply (secondDenotes.differs lowDenotes).bind
  intro secondDiffers secondRead
  apply Succeeds.lift
  refine (bothRead.and secondRead).mono ?_
  intro result resultReads
  simpa only [Bool.decide_and, Bool.and_assoc] using resultReads

theorem reads_isProduct {high low : Word} {f g h l : Nat}
    (firstDenotes : I.Denotes wordBits inputs.factor1 f)
    (secondDenotes : I.Denotes wordBits inputs.factor2 g)
    (highDenotes : I.Denotes wordBits high h) (lowDenotes : I.Denotes wordBits low l) :
    Succeeds (Obligation.isProduct inputs high low) fun result =>
      I.Reads result (decide (256 * h + l = f * g)) := by
  have result : (h * 2 ^ wordBits % 2 ^ (wordBits + wordBits) + l) % 2 ^ (wordBits + wordBits) =
      256 * h + l := by
    have highBound : h < 256 := highDenotes.lt
    have lowBound : l < 256 := lowDenotes.lt
    change (h * 256 % 65536 + l) % 65536 = 256 * h + l
    omega
  apply (firstDenotes.mul_zeroExtend secondDenotes).bind
  intro productWord productDenotes
  apply (((highDenotes.zeroExtend wordBits).shiftLeft wordBits).add
    (lowDenotes.zeroExtend wordBits)).bind
  intro resultWord resultDenotes
  rw [result] at resultDenotes
  exact resultDenotes.equals productDenotes

/-- The precondition holds if the addresses differ, and the conclusion if the result is the
product. -/
theorem reads_ofResult {high low : Word} {width p q r f g h l : Nat}
    (firstAddress : I.Denotes width inputs.factor1Address p)
    (secondAddress : I.Denotes width inputs.factor2Address q)
    (lowAddress : I.Denotes width inputs.lowAddress r)
    (firstFactor : I.Denotes wordBits inputs.factor1 f)
    (secondFactor : I.Denotes wordBits inputs.factor2 g)
    (highDenotes : I.Denotes wordBits high h) (lowDenotes : I.Denotes wordBits low l) :
    Succeeds (Obligation.ofResult inputs high low) fun obligation =>
      I.Reads obligation.precondition (decide (p ≠ q ∧ p ≠ r ∧ q ≠ r)) ∧
      I.Reads obligation.conclusion (decide (256 * h + l = f * g)) := by
  apply (reads_distinctAddresses firstAddress secondAddress lowAddress).bind
  intro precondition preconditionReads
  apply (reads_isProduct firstFactor secondFactor highDenotes lowDenotes).bind
  intro conclusion conclusionReads
  exact .pure ⟨preconditionReads, conclusionReads⟩

/-- The statement of an obligation fails only where the precondition holds and the conclusion
does not. -/
theorem reads_statement {obligation : Obligation} {precondition conclusion : Prop}
    [Decidable precondition] [Decidable conclusion]
    (preconditionReads : I.Reads obligation.precondition (decide precondition))
    (conclusionReads : I.Reads obligation.conclusion (decide conclusion)) :
    Gives obligation.statement fun statement =>
      I.Reads statement (decide (precondition -> conclusion)) := by
  refine (preconditionReads.implies conclusionReads).mono ?_
  intro statement statementReads
  have meaning : decide (precondition -> conclusion) =
      (!decide precondition || decide conclusion) := by
    rw [Bool.eq_iff_iff]
    simp only [decide_eq_true_iff, Bool.or_eq_true, Bool.not_eq_true', decide_eq_false_iff_not]
    exact imp_iff_not_or
  rwa [meaning]

/-- The obligation holds if the result is the product or two addresses are the same. -/
theorem reads_obligation {high low : Word} {width p q r f g h l : Nat}
    (firstAddress : I.Denotes width inputs.factor1Address p)
    (secondAddress : I.Denotes width inputs.factor2Address q)
    (lowAddress : I.Denotes width inputs.lowAddress r)
    (firstFactor : I.Denotes wordBits inputs.factor1 f)
    (secondFactor : I.Denotes wordBits inputs.factor2 g)
    (highDenotes : I.Denotes wordBits high h) (lowDenotes : I.Denotes wordBits low l) :
    Succeeds (Obligation.ofResult inputs high low) fun obligation =>
      Gives obligation.statement fun statement =>
        I.Reads statement (decide (p ≠ q ∧ p ≠ r ∧ q ≠ r -> 256 * h + l = f * g)) := by
  apply (reads_ofResult firstAddress secondAddress lowAddress firstFactor secondFactor highDenotes
    lowDenotes).mono
  rintro obligation ⟨preconditionReads, conclusionReads⟩
  exact reads_statement preconditionReads conclusionReads

theorem obligation_holds {high low : Word} {width p q r f g h l : Nat}
    (firstAddress : I.Denotes width inputs.factor1Address p)
    (secondAddress : I.Denotes width inputs.factor2Address q)
    (lowAddress : I.Denotes width inputs.lowAddress r)
    (firstFactor : I.Denotes wordBits inputs.factor1 f)
    (secondFactor : I.Denotes wordBits inputs.factor2 g)
    (highDenotes : I.Denotes wordBits high h) (lowDenotes : I.Denotes wordBits low l)
    (multiplies : p ≠ q ∧ p ≠ r ∧ q ≠ r -> 256 * h + l = f * g) :
    Succeeds (Obligation.ofResult inputs high low) fun obligation =>
      Gives obligation.statement fun statement => I.Reads statement true := by
  have said := reads_obligation firstAddress secondAddress lowAddress firstFactor secondFactor
    highDenotes lowDenotes
  rwa [decide_eq_true multiplies] at said

end Interpretation

/-! ## Assignments -/

namespace Obligation

/-- The words of which an obligation is made. -/
def operands (inputs : Inputs) (high low : Word) : List Word :=
  [inputs.factor1Address, inputs.factor2Address, inputs.lowAddress, inputs.factor1,
   inputs.factor2, high, low]

/-- The words of which an obligation is made have the right widths.  Addresses may have any
width that they have in common. -/
structure Proportioned (inputs : Inputs) (high low : Word) (width : Nat) : Prop where
  factor1Address : inputs.factor1Address.width = width
  factor2Address : inputs.factor2Address.width = width
  lowAddress : inputs.lowAddress.width = width
  factor1 : inputs.factor1.width = wordBits
  factor2 : inputs.factor2.width = wordBits
  high : high.width = wordBits
  low : low.width = wordBits

/-- An obligation says what it should.  Under an assignment of all variables that occur, its
precondition holds just if the three addresses are different numbers, its conclusion just if
the result is the product of the factors, and its statement fails just if the addresses are
different and the result is not the product. -/
theorem evaluates_to_product {inputs : Inputs} {high low : Word} {width : Nat}
    (proportioned : Proportioned inputs high low width) (assignment : Assignment)
    (covers : assignment.Covers ((operands inputs high low).flatMap Word.support)) :
    let number := Word.value assignment.valuation
    let first := number inputs.factor1Address
    let second := number inputs.factor2Address
    let target := number inputs.lowAddress
    let distinct := first ≠ second ∧ first ≠ target ∧ second ≠ target
    let result := 256 * number high + number low
    let product := number inputs.factor1 * number inputs.factor2
    (∀ word ∈ operands inputs high low, assignment.Finds word.width word (number word)) ∧
    Succeeds (ofResult inputs high low) fun obligation =>
      assignment.evaluate obligation.precondition = some (decide distinct) ∧
      assignment.evaluate obligation.conclusion = some (decide (result = product)) ∧
      Gives obligation.statement fun statement =>
        assignment.evaluate statement = some (!decide (distinct ∧ result ≠ product)) := by
  intro number first second target distinct result product
  have covered := Assignment.covers_flatMap.mp covers
  have denotes : ∀ {word width}, word ∈ operands inputs high low -> word.width = width ->
      (Interpretation.ofAssignment assignment).Denotes width word (number word) := by
    intro word width member hasWidth
    exact Interpretation.denotes_of_covers hasWidth (covered word member)
  refine ⟨fun word member => (denotes member rfl).finds, ?_⟩
  apply (Interpretation.reads_ofResult
    (denotes (by simp [operands]) proportioned.factor1Address)
    (denotes (by simp [operands]) proportioned.factor2Address)
    (denotes (by simp [operands]) proportioned.lowAddress)
    (denotes (by simp [operands]) proportioned.factor1)
    (denotes (by simp [operands]) proportioned.factor2)
    (denotes (by simp [operands]) proportioned.high)
    (denotes (by simp [operands]) proportioned.low)).mono
  rintro obligation ⟨preconditionReads, conclusionReads⟩
  refine ⟨?_, ?_, ?_⟩
  · rw [Assignment.evaluate_eq]
    exact preconditionReads
  · rw [Assignment.evaluate_eq]
    exact conclusionReads
  · refine (Interpretation.reads_statement preconditionReads conclusionReads).mono ?_
    intro statement statementReads
    have meaning : decide (distinct -> result = product) =
        !decide (distinct ∧ result ≠ product) := by
      rw [← decide_not]
      exact decide_eq_decide.mpr not_and_not_right.symm
    rw [Assignment.evaluate_eq, ← meaning]
    exact statementReads

/-- Inputs with addresses of two bits.  One bit of the second address and one bit of the second
factor are open. -/
def twoBitAddresses : Inputs where
  memoryBase := .zero 8
  factor1Address := .constant 1 2
  factor1 := .constant 255 8
  factor2Address := ⟨[.var 0, .one]⟩
  factor2 := ⟨.var 1 :: List.replicate 7 .one⟩
  lowAddress := .constant 3 2
  x := .zero 8
  a := .zero 8
  memoryFill := .zero 8
  carry := .zero
  zero := .zero

/-- The square of 255 is not 255 times 254, which refutes the obligation where the addresses
differ, but not where the second one is that of the low word. -/
theorem evaluates_to_product_twoBitAddresses :
    let high : Word := .constant 254 8
    let low : Word := .constant 1 8
    let support := (operands twoBitAddresses high low).flatMap Word.support
    let apart : Assignment := .ofList [(0, false), (1, false)]
    let aliased : Assignment := .ofList [(0, true), (1, false)]
    Proportioned twoBitAddresses high low 2 ∧ apart.Covers support ∧ aliased.Covers support ∧
    (Succeeds (ofResult twoBitAddresses high low) fun obligation =>
      Gives obligation.statement fun statement => apart.evaluate statement = some false) ∧
    Succeeds (ofResult twoBitAddresses high low) fun obligation =>
      Gives obligation.statement fun statement => aliased.evaluate statement = some true := by
  intro high low support apart aliased
  have proportioned : Proportioned twoBitAddresses high low 2 :=
    ⟨rfl, rfl, rfl, rfl, rfl, rfl, rfl⟩
  have apartCovers : apart.Covers support := by
    decide
  have aliasedCovers : aliased.Covers support := by
    decide
  refine ⟨proportioned, apartCovers, aliasedCovers, ?_, ?_⟩
  · apply (evaluates_to_product proportioned apart apartCovers).2.mono
    rintro obligation ⟨_, _, evaluates⟩
    refine evaluates.mono ?_
    intro statement evaluated
    rw [evaluated]
    decide
  · apply (evaluates_to_product proportioned aliased aliasedCovers).2.mono
    rintro obligation ⟨_, _, evaluates⟩
    refine evaluates.mono ?_
    intro statement evaluated
    rw [evaluated]
    decide

end Obligation
end SymbolicMachine
