import Mathlib.Data.List.Rotate
import SymbolicMachine.Proofs.Arithmetic

namespace SymbolicMachine
namespace Word

/-!
# Rotation through the carry

A rotation moves the bits of a word down by one place, lets the carry in at the top and hands
the lowest bit out.  No gate is built for it, so everything that follows is about places.

If the bit that comes out is the next one to go in, word and carry together are a ring that is
one place longer than the word.  If the bits that go in come from elsewhere, the word is a
queue: what goes in comes out again, in the same order and as many rotations later as the word
is wide.
-/

/-- Rotate again and again, with the bit that came out as the next one to go in. -/
def rotations : Nat -> Word -> Bit -> Checked (Word × Bit)
  | 0, word, carry => pure (word, carry)
  | count + 1, word, carry => do
      let (rotated, out) ← word.rotateRight carry
      rotations count rotated out

/-- Rotate once for every given bit, from first to last, and collect what comes out. -/
def feed : Word -> List Bit -> Checked (Word × List Bit)
  | word, [] => pure (word, [])
  | word, carry :: later => do
      let (rotated, out) ← word.rotateRight carry
      let (last, outs) ← feed rotated later
      return (last, out :: outs)

/-! ## One rotation -/

@[simp] theorem rotateRight_cons (lowest : Bit) (rest : List Bit) (carry : Bit) :
    rotateRight ⟨lowest :: rest⟩ carry = pure (⟨rest ++ [carry]⟩, lowest) :=
  rfl

/-- The zero that a shift by one place lets in stands in the top place and nowhere else. -/
theorem withBit_shiftRight (lowest : Bit) (rest : List Bit) (carry : Bit) :
    withBit (shiftRight ⟨lowest :: rest⟩ 1) rest.length carry = pure ⟨rest ++ [carry]⟩ := by
  have filled : shiftRight ⟨lowest :: rest⟩ 1 = ⟨rest ++ [.zero]⟩ := by
    simp [shiftRight, width]
  rw [filled, withBit, require, if_pos (by simp [width]), pure_bind]
  simp

/-- A rotation reads the lowest bit, shifts by one place and overwrites the top place, for words
of every width.  The empty word is misused by the first of these. -/
theorem rotateRight_eq_shift (word : Word) (carry : Bit) :
    word.rotateRight carry = do
      let lowest ← word.bit 0
      let rotated ← (word.shiftRight 1).withBit (word.width - 1) carry
      return (rotated, lowest) := by
  rcases word with ⟨bits⟩
  cases bits with
  | nil => rfl
  | cons lowest rest =>
      have top : width ⟨lowest :: rest⟩ - 1 = rest.length := rfl
      rw [top, withBit_shiftRight]
      rfl

/-! ## Many rotations -/

/-- Word and carry are turned as one ring. -/
theorem rotations_turn (count : Nat) (word : Word) (carry : Bit) (inhabited : word.bits ≠ []) :
    ∃ rotated last, rotations count word carry = pure (rotated, last) ∧
      rotated.bits ++ [last] = (word.bits ++ [carry]).rotate count := by
  induction count generalizing word carry with
  | zero => exact ⟨word, carry, rfl, (List.rotate_zero _).symm⟩
  | succ count ih =>
      rcases word with ⟨bits⟩
      rcases List.exists_cons_of_ne_nil inhabited with ⟨lowest, rest, rfl⟩
      have turned := ih ⟨rest ++ [carry]⟩ lowest (by simp)
      rw [rotations, rotateRight_cons, pure_bind, List.cons_append, List.rotate_cons_succ]
      exact turned

/-- The ring is back in its place after as many rotations as it has places. -/
theorem rotations_return (word : Word) (carry : Bit) (inhabited : word.bits ≠ []) :
    rotations (word.width + 1) word carry = pure (word, carry) := by
  rcases rotations_turn (word.width + 1) word carry inhabited with ⟨rotated, last, ended, turned⟩
  have length : (word.bits ++ [carry]).length = word.width + 1 := List.length_append
  rw [← length, List.rotate_length] at turned
  have parts := List.append_inj' turned rfl
  have sameWord : rotated = word := congrArg Word.mk parts.1
  have sameCarry : last = carry := List.singleton_inj.mp parts.2
  rw [ended, sameWord, sameCarry]

/-- A word is a queue for the bits that it is fed with. -/
theorem feed_queues (inputs : List Bit) (word : Word) (inhabited : word.bits ≠ []) :
    word.feed inputs = pure (⟨(word.bits ++ inputs).drop inputs.length⟩,
      (word.bits ++ inputs).take inputs.length) := by
  induction inputs generalizing word with
  | nil => simp [feed]
  | cons carry later ih =>
      rcases word with ⟨bits⟩
      rcases List.exists_cons_of_ne_nil inhabited with ⟨lowest, rest, rfl⟩
      have fed := ih ⟨rest ++ [carry]⟩ (by simp)
      rw [feed, rotateRight_cons, pure_bind]
      simp [fed]

/-- Rotation through the carry is a cyclic shift.  It builds nothing: its result has the bits of
the word without the lowest one, followed by the carry, and the lowest bit comes out, which is
what a shift by one place amounts to whose top place is overwritten.  The number is halved, with
the carry as the new top digit.  Any number of rotations turns the ring of word and carry by so
many places, so that one rotation more than the word has bits undoes all of them, and as many
bits fed in as the word has replace its own, which come out from the lowest to the highest. -/
theorem rotation_is_cyclic (word : Word) (carry : Bit) (inhabited : 1 ≤ word.width) :
    (∃ lowest rest, word.bits = lowest :: rest ∧
      word.rotateRight carry = pure (⟨rest ++ [carry]⟩, lowest)) ∧
    (word.rotateRight carry = do
      let lowest ← word.bit 0
      let rotated ← (word.shiftRight 1).withBit (word.width - 1) carry
      return (rotated, lowest)) ∧
    (∀ (assignment : Assignment) (n : Nat) (c : Bool), assignment.Finds word.width word n ->
      assignment.evaluate carry = some c ->
      Succeeds (word.rotateRight carry) fun result =>
        assignment.Finds word.width result.1 (n / 2 + c.toNat * 2 ^ (word.width - 1))) ∧
    (∀ count, ∃ rotated last, rotations count word carry = pure (rotated, last) ∧
      rotated.bits ++ [last] = (word.bits ++ [carry]).rotate count) ∧
    rotations (word.width + 1) word carry = pure (word, carry) ∧
    ∀ inputs : List Bit, inputs.length = word.width ->
      word.feed inputs = pure (⟨inputs⟩, word.bits) := by
  have nonempty : word.bits ≠ [] := List.ne_nil_of_length_pos inhabited
  refine ⟨?_, rotateRight_eq_shift word carry, ?_,
    fun count => rotations_turn count word carry nonempty,
    rotations_return word carry nonempty, ?_⟩
  · rcases word with ⟨bits⟩
    rcases List.exists_cons_of_ne_nil nonempty with ⟨lowest, rest, rfl⟩
    exact ⟨lowest, rest, rfl, rotateRight_cons lowest rest carry⟩
  · intro assignment n c finds evaluates
    have width : word.width - 1 + 1 = word.width := Nat.sub_add_cancel inhabited
    have denotes := finds.denotes
    rw [← width] at denotes
    have carryReads : (Interpretation.ofAssignment assignment).Reads carry c := by
      rwa [Assignment.evaluate_eq] at evaluates
    apply (denotes.rotateRight carryReads).mono
    intro result outcome
    rw [width, Nat.mul_comm] at outcome
    exact outcome.1.finds
  · intro inputs full
    rw [feed_queues inputs word nonempty, full]
    simp [Word.width]

/-- Four becomes six in three bits, although one variable is open.  A word of one bit hands out
its bit and takes in another, and has both where they were after two rotations. -/
theorem rotation_is_cyclic_examples :
    let gate : Bit := .andGate 0 (.var 0) 1 (.var 1)
    let carry : Bit := .notGate 2 (.var 0)
    let word : Word := ⟨[.var 0, gate, .one]⟩
    let single : Word := ⟨[gate]⟩
    let assignment : Assignment := .ofList [(0, false)]
    1 ≤ word.width ∧ 1 ≤ single.width ∧ assignment.Finds 3 word 4 ∧
    assignment.evaluate carry = some true ∧
    (Succeeds (word.rotateRight carry) fun result => assignment.Finds 3 result.1 6) ∧
    word.feed [.one, carry, .var 1] = pure (⟨[.one, carry, .var 1]⟩, [.var 0, gate, .one]) ∧
    rotations 2 single carry = pure (single, carry) := by
  intro gate carry word single assignment
  have inhabited : 1 ≤ word.width := by decide
  have singleInhabited : 1 ≤ single.width := by decide
  have finds : assignment.Finds 3 word 4 := by
    apply Interpretation.Denotes.finds
    exact ⟨[false, false, true], .cons rfl (.cons rfl (.cons rfl .nil)), rfl, rfl⟩
  have evaluates : assignment.evaluate carry = some true := by
    rw [Assignment.evaluate_eq]
    rfl
  have cyclic := rotation_is_cyclic word carry inhabited
  exact ⟨inhabited, singleInhabited, finds, evaluates,
    cyclic.2.2.1 assignment 4 true finds evaluates,
    cyclic.2.2.2.2.2 _ rfl, (rotation_is_cyclic single carry singleInhabited).2.2.2.2.1⟩

end Word
end SymbolicMachine
