import SymbolicMachine.Proofs.Arithmetic

namespace SymbolicMachine
namespace Word

/-!
# Shifts and zero extension

Shifts move the bits of a word to other places and fill up with zeros, and a zero extension adds
zeros on top.  No gate is built for any of them, so where each bit ends up is decided without an
assignment.  A word is taken here as its width together with the bit at every place, where all
places above the top hold zero.  A right shift then reads so many places further up, an extension
changes no place, and only a left shift has to tell the places that it fills from the others.

The amounts are not bounded, neither by the width nor otherwise, and the word may be empty.
-/

/-- The bit at a place, which is zero above the top. -/
def digit (word : Word) (place : Nat) : Bit :=
  word.bits[place]?.getD .zero

/-! ## Places -/

theorem digit_of_width_le {word : Word} {place : Nat} (above : word.width ≤ place) :
    word.digit place = .zero := by
  rw [digit, List.getElem?_eq_none above, Option.getD_none]

/-- Words of one width with the same bit at every place are equal. -/
theorem eq_of_digits {left right : Word} (sameWidth : left.width = right.width)
    (same : ∀ place < right.width, left.digit place = right.digit place) : left = right := by
  rcases left with ⟨xs⟩
  rcases right with ⟨ys⟩
  refine congrArg Word.mk (List.ext_getElem sameWidth ?_)
  intro place inLeft inRight
  have equal := same place inRight
  simpa only [digit, List.getElem?_eq_getElem inLeft, List.getElem?_eq_getElem inRight,
    Option.getD_some] using equal

@[simp] theorem digit_zero (width place : Nat) : (zero width).digit place = .zero := by
  simp only [digit, zero, List.getElem?_replicate]
  split <;> rfl

@[simp] theorem digit_zeroExtend (word : Word) (amount place : Nat) :
    (word.zeroExtend amount).digit place = word.digit place := by
  simp only [digit, zeroExtend]
  by_cases inside : place < word.bits.length
  · rw [List.getElem?_append_left inside]
  · have above : word.bits.length ≤ place := Nat.le_of_not_lt inside
    rw [List.getElem?_append_right above, List.getElem?_eq_none above]
    exact digit_zero amount _

@[simp] theorem digit_shiftRight (word : Word) (amount place : Nat) :
    (word.shiftRight amount).digit place = word.digit (place + amount) := by
  -- The zeros that a right shift lets in stand where the word has no places any more.
  have extended : word.shiftRight amount =
      zeroExtend ⟨word.bits.drop amount⟩ (min amount word.width) := rfl
  rw [extended, digit_zeroExtend, digit, List.getElem?_drop, Nat.add_comm, digit]

theorem digit_shiftLeft {word : Word} {place : Nat} (inside : place < word.width)
    (amount : Nat) :
    (word.shiftLeft amount).digit place =
      if place < amount then .zero else word.digit (place - amount) := by
  simp only [digit, shiftLeft]
  split
  · next filled =>
      have low : place < (List.replicate (min amount word.width) Bit.zero).length := by
        rw [List.length_replicate]
        omega
      rw [List.getElem?_append_left low]
      exact digit_zero _ place
  · next moved =>
      have fill : (List.replicate (min amount word.width) Bit.zero).length = amount := by
        rw [List.length_replicate]
        omega
      rw [List.getElem?_append_right (by omega), fill, List.getElem?_take_of_lt (by omega)]

/-! ## Shifts in one direction -/

theorem shiftLeft_shiftLeft (word : Word) (first second : Nat) :
    (word.shiftLeft first).shiftLeft second = word.shiftLeft (first + second) := by
  apply eq_of_digits
  · simp only [width_shiftLeft]
  · intro place inside
    rw [width_shiftLeft] at inside
    have onceMore : place < (word.shiftLeft first).width := by rwa [width_shiftLeft]
    rw [digit_shiftLeft onceMore, digit_shiftLeft inside]
    by_cases filled : place < second
    · rw [if_pos filled, if_pos (by omega)]
    · have lower : place - second < word.width := by omega
      have room : place - second < first ↔ place < first + second := by omega
      rw [if_neg filled, digit_shiftLeft lower, Nat.sub_sub, Nat.add_comm second first]
      simp only [room]

theorem shiftRight_shiftRight (word : Word) (first second : Nat) :
    (word.shiftRight first).shiftRight second = word.shiftRight (first + second) := by
  apply eq_of_digits
  · simp only [width_shiftRight]
  · intro place _
    simp only [digit_shiftRight, Nat.add_assoc, Nat.add_comm second first]

theorem shiftLeft_zero (word : Word) : word.shiftLeft 0 = word := by
  simp [shiftLeft, width]

theorem shiftRight_zero (word : Word) : word.shiftRight 0 = word := by
  simp [shiftRight]

/-- Moves that add up in pairs add up in any number. -/
theorem foldl_eq_sum {move : Word -> Nat -> Word} (still : ∀ word, move word 0 = word)
    (further : ∀ word first second, move (move word first) second = move word (first + second))
    (amounts : List Nat) (word : Word) :
    amounts.foldl move word = move word amounts.sum := by
  induction amounts generalizing word with
  | nil => exact (still word).symm
  | cons amount rest ih => rw [List.foldl_cons, ih, further, List.sum_cons]

theorem shiftLeft_of_width_le {word : Word} {amount : Nat} (beyond : word.width ≤ amount) :
    word.shiftLeft amount = zero word.width := by
  apply eq_of_digits
  · simp only [width_shiftLeft, width_zero]
  · intro place inside
    rw [width_zero] at inside
    rw [digit_shiftLeft inside, if_pos (by omega), digit_zero]

theorem shiftRight_of_width_le {word : Word} {amount : Nat} (beyond : word.width ≤ amount) :
    word.shiftRight amount = zero word.width := by
  apply eq_of_digits
  · simp only [width_shiftRight, width_zero]
  · intro place _
    rw [digit_shiftRight, digit_zero]
    exact digit_of_width_le (by omega)

/-! ## Shifts back and forth -/

/-- A word that has room for a left shift, because the places that it drops hold zeros, is what
the right shift by the same amount gives back. -/
theorem shiftRight_shiftLeft {word : Word} {amount : Nat}
    (room : ∀ place, word.width ≤ place + amount -> word.digit place = .zero) :
    (word.shiftLeft amount).shiftRight amount = word := by
  apply eq_of_digits
  · simp only [width_shiftLeft, width_shiftRight]
  · intro place _
    rw [digit_shiftRight]
    by_cases kept : place + amount < word.width
    · rw [digit_shiftLeft kept, if_neg (by omega), Nat.add_sub_cancel]
    · have dropped : word.width ≤ place + amount := Nat.le_of_not_lt kept
      rw [room place dropped]
      apply digit_of_width_le
      rwa [width_shiftLeft]

theorem shiftRight_shiftLeft_zeroExtend (word : Word) (amount : Nat) :
    ((word.zeroExtend amount).shiftLeft amount).shiftRight amount = word.zeroExtend amount := by
  apply shiftRight_shiftLeft
  intro place above
  rw [width_zeroExtend] at above
  rw [digit_zeroExtend]
  exact digit_of_width_le (by omega)

/-- Shifts multiply and divide by powers of two, for words of every width and for every amount.  A
left shift gives the product modulo the power of two that the width gives, and a right shift the
quotient rounded down.  Both keep the width, by the width and more they leave nothing but zeros,
and any number of shifts in one direction is one shift by the sum of their amounts, bit for bit.
A zero extension is wider by its amount and the same number, and it has room for a shift by that
amount, which a shift back undoes bit for bit. -/
theorem shifts_evaluate (word : Word) :
    (∀ assignment : Assignment, assignment.Covers word.support ->
      let n := word.value assignment.valuation
      assignment.Finds word.width word n ∧
      (∀ amount,
        assignment.Finds word.width (word.shiftLeft amount) (n * 2 ^ amount % 2 ^ word.width) ∧
        assignment.Finds word.width (word.shiftRight amount) (n / 2 ^ amount)) ∧
      ∀ extra, assignment.Finds (word.width + extra) (word.zeroExtend extra) n) ∧
    (∀ amount, (word.shiftLeft amount).width = word.width ∧
      (word.shiftRight amount).width = word.width) ∧
    (∀ amount, word.width ≤ amount ->
      word.shiftLeft amount = zero word.width ∧ word.shiftRight amount = zero word.width) ∧
    (∀ amounts : List Nat, amounts.foldl shiftLeft word = word.shiftLeft amounts.sum ∧
      amounts.foldl shiftRight word = word.shiftRight amounts.sum) ∧
    ∀ extra, (word.zeroExtend extra).width = word.width + extra ∧
      ((word.zeroExtend extra).shiftLeft extra).shiftRight extra = word.zeroExtend extra := by
  refine ⟨?_, ?_, ?_, ?_, ?_⟩
  · intro assignment covers n
    have denotes : (Interpretation.ofAssignment assignment).Denotes word.width word n :=
      Interpretation.denotes_of_covers rfl covers
    refine ⟨denotes.finds, ?_, fun extra => (denotes.zeroExtend extra).finds⟩
    intro amount
    exact ⟨(denotes.shiftLeft amount).finds, (denotes.shiftRight amount).finds⟩
  · intro amount
    exact ⟨width_shiftLeft word amount, width_shiftRight word amount⟩
  · intro amount beyond
    exact ⟨shiftLeft_of_width_le beyond, shiftRight_of_width_le beyond⟩
  · intro amounts
    exact ⟨foldl_eq_sum shiftLeft_zero shiftLeft_shiftLeft amounts word,
      foldl_eq_sum shiftRight_zero shiftRight_shiftRight amounts word⟩
  · intro extra
    exact ⟨width_zeroExtend word extra, shiftRight_shiftLeft_zeroExtend word extra⟩

/-- A word of 65 bits, with a one in the lowest place and another one above all places that are
reported, loses the upper one to a left shift and the lower one to a right shift, and both to a
shift by more than its width.  An empty word is shifted and extended as well. -/
theorem shifts_evaluate_wide :
    let word : Word := ⟨.var 0 :: List.replicate 63 (.notGate 0 (.var 0)) ++ [.var 1]⟩
    let empty : Word := ⟨[]⟩
    let assignment : Assignment := .ofList [(0, true), (1, true)]
    assignment.Covers word.support ∧ assignment.Covers empty.support ∧
    word.width ≤ 2 ^ 64 - 1 ∧
    assignment.Finds 65 word (2 ^ 64 + 1) ∧
    assignment.Finds 65 (word.shiftLeft 1) 2 ∧
    assignment.Finds 65 (word.shiftRight 64) 1 ∧
    word.shiftLeft (2 ^ 64 - 1) = zero 65 ∧ word.shiftRight (2 ^ 64 - 1) = zero 65 ∧
    ((word.shiftRight 1).shiftRight 0).shiftRight 63 = word.shiftRight 64 ∧
    assignment.Finds 68 (word.zeroExtend 3) (2 ^ 64 + 1) ∧
    assignment.Finds 0 (empty.shiftRight 7) 0 ∧
    assignment.Finds 2 (empty.zeroExtend 2) 0 := by
  intro word empty assignment
  have covers : assignment.Covers word.support := by
    decide +kernel
  have coversEmpty : assignment.Covers empty.support := by
    decide
  have beyond : word.width ≤ 2 ^ 64 - 1 := by
    decide
  have value : word.value assignment.valuation = 2 ^ 64 + 1 := by
    decide +kernel
  have doubled : (2 ^ 64 + 1) * 2 ^ 1 % 2 ^ word.width = 2 := by
    decide
  have shifted := shifts_evaluate word
  have found := shifted.1 assignment covers
  rw [value] at found
  have left := (found.2.1 1).1
  rw [doubled] at left
  have cleared := shifted.2.2.1 (2 ^ 64 - 1) beyond
  have valueEmpty : empty.value assignment.valuation = 0 := rfl
  have nothing := (shifts_evaluate empty).1 assignment coversEmpty
  rw [valueEmpty] at nothing
  exact ⟨covers, coversEmpty, beyond, found.1, left, (found.2.1 64).2, cleared.1, cleared.2,
    (shifted.2.2.2.1 [1, 0, 63]).2, found.2.2 3, (nothing.2.1 7).2, nothing.2.2 2⟩

end Word
end SymbolicMachine
