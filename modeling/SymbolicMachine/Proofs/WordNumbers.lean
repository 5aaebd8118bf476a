import SymbolicMachine.Proofs.Arithmetic

namespace SymbolicMachine
namespace Word

/-!
# Words as numbers

Under an assignment of the variables that occur in it a word is a number.  Arithmetic on words
of one width is arithmetic on these numbers.  A sum together with the carry that leaves it is
the exact sum, and what drops the carry, or the digits that are shifted out, is arithmetic
modulo the power of two that the width gives.  A product of words that were widened to twice
their width is exact again.  Comparisons compare the numbers.

Nothing is asked of the bits.  They may be literals, share variables or negate each other, so
that any part of a construction may be simplified away.  The width is not bounded either, and
words that are too wide for their number to be reported have it in their digits.  Words of
different widths are a misuse.
-/

variable {width : Nat} {left right : Word}

/-! ## Misuse -/

theorem paired_misuses (different : left.width ≠ right.width) :
    Misuses (paired left right) (.differentWidths left.width right.width) :=
  (Misuses.require (beq_eq_false_iff_ne.mpr different)).bind

theorem addWithCarry_misuses (different : left.width ≠ right.width) (carry : Bit) :
    Misuses (left.addWithCarry right carry) (.differentWidths left.width right.width) :=
  (paired_misuses different).bind

/-- Negation keeps the width. -/
theorem width_not (word : Word) : Gives word.not fun result => result.width = word.width :=
  (Interpretation.denotes_value (fun _ => false) word).not.mono fun _ denotes => denotes.width_eq

/-- The subtrahend is negated before its width is looked at, but keeps it. -/
theorem sub_misuses (different : left.width ≠ right.width) :
    Misuses (left.sub right) (.differentWidths left.width right.width) := by
  refine Misuses.lift_bind right.width_not ?_
  intro inverted sameWidth
  rw [← sameWidth] at different ⊢
  exact (addWithCarry_misuses different .one).bind

/-! ## Sums -/

/-- Adding the complement is subtraction for integers modulo the bound. -/
theorem cast_add_complement {n m bound : Nat} (within : m ≤ bound) :
    (((n + (bound - m)) % bound : Nat) : Int) = ((n : Int) - m) % bound := by
  have moved : (n : Int) + ((bound : Int) - m) = (n : Int) - m + bound := by
    ring
  rw [Int.natCast_mod, Int.natCast_add, Int.natCast_sub within, moved, Int.add_emod_right]

/-- Sums and differences of words are those of their numbers.  A sum and the carry that leaves it
are the exact sum of the numbers and of the carry that enters, the sum alone is the one modulo
the power of two, and so is the difference.  Words of different widths have neither. -/
theorem sums_evaluate (left right : Word) (carry : Bit) :
    (left.width = right.width -> ∀ assignment : Assignment,
      assignment.Covers (left.support ++ (right.support ++ carry.support)) ->
      let width := left.width
      let n := left.value assignment.valuation
      let m := right.value assignment.valuation
      let c := carry.eval assignment.valuation
      assignment.Finds width left n ∧ assignment.Finds width right m ∧
      assignment.evaluate carry = some c ∧
      (Succeeds (left.addWithCarry right carry) fun result => ∃ (sum : Nat) (last : Bool),
        assignment.Finds width result.1 sum ∧ assignment.evaluate result.2 = some last ∧
        sum + 2 ^ width * last.toNat = n + m + c.toNat) ∧
      (Succeeds (left.add right) fun result =>
        assignment.Finds width result ((n + m) % 2 ^ width)) ∧
      Succeeds (left.sub right) fun result => ∃ difference : Nat,
        assignment.Finds width result difference ∧
        (difference : Int) = ((n : Int) - m) % 2 ^ width) ∧
    (left.width ≠ right.width ->
      let misuse := Misuse.differentWidths left.width right.width
      Misuses (left.addWithCarry right carry) misuse ∧ Misuses (left.add right) misuse ∧
        Misuses (left.sub right) misuse) := by
  constructor
  · intro sameWidth assignment covers width n m c
    have parts := Assignment.covers_append.mp covers
    have others := Assignment.covers_append.mp parts.2
    have leftDenotes : (Interpretation.ofAssignment assignment).Denotes width left n :=
      Interpretation.denotes_of_covers rfl parts.1
    have rightDenotes : (Interpretation.ofAssignment assignment).Denotes width right m :=
      Interpretation.denotes_of_covers sameWidth.symm others.1
    have carryReads := Interpretation.reads_of_covers others.2
    refine ⟨leftDenotes.finds, rightDenotes.finds, carryReads.evaluate, ?_, ?_, ?_⟩
    · apply (leftDenotes.addWithCarry_total rightDenotes carryReads).mono
      rintro result ⟨sum, last, sumDenotes, lastReads, total⟩
      exact ⟨sum, last, sumDenotes.finds, lastReads.evaluate, total⟩
    · apply (leftDenotes.add rightDenotes).mono
      intro result denotes
      exact denotes.finds
    · apply (leftDenotes.sub rightDenotes).mono
      intro result denotes
      refine ⟨_, denotes.finds, ?_⟩
      exact_mod_cast cast_add_complement rightDenotes.lt.le
  · intro different misuse
    exact ⟨addWithCarry_misuses different carry, (addWithCarry_misuses different .zero).bind,
      sub_misuses different⟩

/-- The sum of all ones and one, in a word wider than an evaluator reports, is zero and a carry.
The ones are a single variable and the zeros of one its negation. -/
theorem sums_evaluate_overflow :
    let ones : Word := ⟨List.replicate 65 (.var 0)⟩
    let one : Word := ⟨.var 0 :: List.replicate 64 (.notGate 0 (.var 0))⟩
    let assignment : Assignment := .ofList [(0, true)]
    ones.width = one.width ∧
    assignment.Covers (ones.support ++ (one.support ++ Bit.zero.support)) ∧
    (Succeeds (ones.addWithCarry one .zero) fun result =>
      assignment.Finds 65 result.1 0 ∧ assignment.evaluate result.2 = some true) ∧
    (Succeeds (one.sub ones) fun result => assignment.Finds 65 result 2) ∧
    Misuses (one.sub (.zero 64)) (.differentWidths 65 64) := by
  intro ones one assignment
  have sameWidth : ones.width = one.width := rfl
  have covers : assignment.Covers (ones.support ++ (one.support ++ Bit.zero.support)) := by
    decide +kernel
  have coversBack : assignment.Covers (one.support ++ (ones.support ++ Bit.zero.support)) := by
    decide +kernel
  have exactSum : ones.value assignment.valuation + one.value assignment.valuation + 0 = 2 ^ 65 := by
    decide +kernel
  have remainder : ((one.value assignment.valuation : Int) - ones.value assignment.valuation) %
      2 ^ 65 = 2 := by
    decide +kernel
  refine ⟨sameWidth, covers, ?_, ?_, ((sums_evaluate one (.zero 64) .zero).2 (by decide)).2.2⟩
  · apply ((sums_evaluate ones one .zero).1 sameWidth assignment covers).2.2.2.1.mono
    rintro result ⟨sum, last, finds, evaluates, total⟩
    have bound : sum < 2 ^ 65 := finds.fits
    have whole : sum + 2 ^ 65 * last.toNat = 2 ^ 65 := total.trans exactSum
    cases last with
    | false =>
        rw [Bool.toNat_false] at whole
        omega
    | true =>
        have nothing : sum = 0 := by
          rw [Bool.toNat_true] at whole
          omega
        exact ⟨nothing ▸ finds, evaluates⟩
  · apply ((sums_evaluate one ones .zero).1 sameWidth.symm assignment coversBack).2.2.2.2.2.mono
    rintro result ⟨difference, finds, equal⟩
    have two : difference = 2 := Int.natCast_inj.mp (equal.trans remainder)
    exact two ▸ finds

/-! ## Products -/

/-- A product of words is the product of their numbers modulo the power of two, and the exact
product if both words are first widened to twice their width. -/
theorem products_evaluate (left right : Word) (leftWidth : left.width = width)
    (rightWidth : right.width = width) (assignment : Assignment)
    (covers : assignment.Covers (left.support ++ right.support)) :
    let n := left.value assignment.valuation
    let m := right.value assignment.valuation
    assignment.Finds width left n ∧ assignment.Finds width right m ∧
    (Succeeds (left.mul right) fun product =>
      assignment.Finds width product (n * m % 2 ^ width)) ∧
    Succeeds ((left.zeroExtend width).mul (right.zeroExtend width)) fun product =>
      assignment.Finds (width + width) product (n * m) := by
  intro n m
  have parts := Assignment.covers_append.mp covers
  have leftDenotes := Interpretation.denotes_of_covers leftWidth parts.1
  have rightDenotes := Interpretation.denotes_of_covers rightWidth parts.2
  refine ⟨leftDenotes.finds, rightDenotes.finds, ?_, ?_⟩
  · apply (leftDenotes.mul rightDenotes).mono
    intro product denotes
    exact denotes.finds
  · apply (leftDenotes.mul_zeroExtend rightDenotes).mono
    intro product denotes
    exact denotes.finds

/-- Seven times five is three modulo eight and thirty-five in six bits, for words that share their
variables. -/
theorem products_evaluate_shared :
    let left : Word := ⟨[.var 0, .var 1, .one]⟩
    let right : Word := ⟨[.var 0, .notGate 0 (.var 0), .var 1]⟩
    let assignment : Assignment := .ofList [(0, true), (1, true)]
    left.width = 3 ∧ right.width = 3 ∧ assignment.Covers (left.support ++ right.support) ∧
    (Succeeds (left.mul right) fun product => assignment.Finds 3 product 3) ∧
    Succeeds ((left.zeroExtend 3).mul (right.zeroExtend 3)) fun product =>
      assignment.Finds 6 product 35 := by
  intro left right assignment
  have leftWidth : left.width = 3 := rfl
  have covers : assignment.Covers (left.support ++ right.support) := by
    decide
  have product : left.value assignment.valuation * right.value assignment.valuation = 35 := by
    decide
  have multiplied := (products_evaluate left right leftWidth rfl assignment covers).2.2
  rw [product] at multiplied
  exact ⟨leftWidth, rfl, covers, multiplied⟩

/-! ## Comparisons -/

/-- Comparisons of words are comparisons of their numbers, taken as unsigned. -/
theorem comparisons_evaluate (left right : Word) (leftWidth : left.width = width)
    (rightWidth : right.width = width) (assignment : Assignment)
    (covers : assignment.Covers (left.support ++ right.support)) :
    let n := left.value assignment.valuation
    let m := right.value assignment.valuation
    assignment.Finds width left n ∧ assignment.Finds width right m ∧
    (Succeeds (left.lessThan right) fun verdict =>
      assignment.evaluate verdict = some (decide (n < m))) ∧
    (Succeeds (left.equals right) fun verdict =>
      assignment.evaluate verdict = some (decide (n = m))) ∧
    Succeeds (left.differs right) fun verdict =>
      assignment.evaluate verdict = some (!decide (n = m)) := by
  intro n m
  have parts := Assignment.covers_append.mp covers
  have leftDenotes := Interpretation.denotes_of_covers leftWidth parts.1
  have rightDenotes := Interpretation.denotes_of_covers rightWidth parts.2
  refine ⟨leftDenotes.finds, rightDenotes.finds, ?_, ?_, ?_⟩
  · apply (leftDenotes.lessThan rightDenotes).mono
    intro verdict reads
    exact reads.evaluate
  · apply (leftDenotes.equals rightDenotes).mono
    intro verdict reads
    exact reads.evaluate
  · apply (leftDenotes.differs rightDenotes).mono
    intro verdict reads
    rw [← decide_not]
    exact reads.evaluate

/-- Three is smaller than six.  The lowest place says otherwise, the next one has the same
variable in both words, and the highest decides. -/
theorem comparisons_evaluate_shared :
    let left : Word := ⟨[.var 0, .var 1, .notGate 0 (.var 1)]⟩
    let right : Word := ⟨[.notGate 1 (.var 0), .var 1, .var 0]⟩
    let assignment : Assignment := .ofList [(0, true), (1, true)]
    left.width = 3 ∧ right.width = 3 ∧ assignment.Covers (left.support ++ right.support) ∧
    (Succeeds (left.lessThan right) fun verdict => assignment.evaluate verdict = some true) ∧
    (Succeeds (left.equals right) fun verdict => assignment.evaluate verdict = some false) ∧
    Succeeds (left.differs right) fun verdict => assignment.evaluate verdict = some true := by
  intro left right assignment
  have covers : assignment.Covers (left.support ++ right.support) := by
    decide
  have three : left.value assignment.valuation = 3 := by
    decide
  have six : right.value assignment.valuation = 6 := by
    decide
  have compared := (comparisons_evaluate left right rfl rfl assignment covers).2.2
  rw [three, six] at compared
  exact ⟨rfl, rfl, covers, compared⟩

end Word
end SymbolicMachine
