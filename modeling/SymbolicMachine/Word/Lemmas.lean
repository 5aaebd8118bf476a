import SymbolicMachine.Bit.Lemmas
import SymbolicMachine.Word.Arithmetic

namespace SymbolicMachine
namespace Word

/-!
# Widths and places of words

Operations that move bits about have a width that depends on the widths of their
operands alone.  Each place of an addition keeps the total of what goes into it, and each
place of a comparison passes on whether what lies below it is smaller.  Words that are recognised
as one are found equal without a gate.
-/

/-! ## Widths -/

@[simp] theorem width_constant (value width : Nat) : (constant value width).width = width := by
  simp [constant, Word.width]

@[simp] theorem width_zero (width : Nat) : (zero width).width = width := by
  simp [zero, Word.width]

@[simp] theorem width_ofBit (bit : Bit) : (ofBit bit).width = 1 := rfl

@[simp] theorem width_shiftLeft (word : Word) (amount : Nat) :
    (word.shiftLeft amount).width = word.width := by
  simp only [shiftLeft, width, List.length_append, List.length_replicate, List.length_take]
  omega

@[simp] theorem width_shiftRight (word : Word) (amount : Nat) :
    (word.shiftRight amount).width = word.width := by
  simp only [shiftRight, width, List.length_append, List.length_replicate, List.length_drop]
  omega

@[simp] theorem width_zeroExtend (word : Word) (amount : Nat) :
    (word.zeroExtend amount).width = word.width + amount := by
  simp [zeroExtend, width]

/-! ## Choices -/

theorem identical_refl (word : Word) : word.identical word = true := by
  have recognised : ∀ bits : List Bit,
      ((bits.zip bits).all fun pair => pair.1.identical pair.2) = true := by
    intro bits
    induction bits with
    | nil => rfl
    | cons bit rest ih => simpa using ih
  rw [identical, beq_self_eq_true, Bool.true_and]
  exact recognised word.bits

theorem combine_select_self (condition : Bit) (bits : List Bit) :
    combine condition.select (bits.zip bits) = pure bits := by
  induction bits with
  | nil => rfl
  | cons bit rest ih =>
      have tail : ((rest.zip rest).mapM fun pair => condition.select pair.1 pair.2) = pure rest := ih
      simp [combine, Bit.select_self, tail]

/-- A choice between a word and itself is no choice. -/
theorem select_self (condition : Bit) (word : Word) : select condition word word = pure word := by
  simp [select, bitwise, paired, require, combine_select_self]

/-- A choice gives one of two words at least if they are equal. -/
theorem returns_select (condition : Bit) (whenTrue whenFalse : Word) :
    Returns (select condition whenTrue whenFalse) fun chosen =>
      whenTrue = whenFalse -> chosen = whenTrue := by
  by_cases same : whenTrue = whenFalse
  · subst same
    rw [select_self]
    exact .pure fun _ => rfl
  · apply (Returns.any _).mono
    intro chosen _ equal
    exact absurd equal same

/-! ## Recognised equality -/

/-- Pairs of bits that are recognised as one are equal, and no gate is placed to say so. -/
theorem allEqual_of_identical {pairs : List (Bit × Bit)}
    (same : ∀ pair ∈ pairs, pair.1.identical pair.2 = true) : allEqual pairs = pure .one := by
  induction pairs with
  | nil => rfl
  | cons pair rest ih =>
      have first : pair.1.equals pair.2 = pure .one := if_pos (same pair List.mem_cons_self)
      have further := ih fun other member => same other (List.mem_cons_of_mem pair member)
      -- The fold starts from one, and the first pair leaves it there.
      have step : allEqual (pair :: rest) =
          (do Bit.one.and (← pair.1.equals pair.2)) >>= fun equal =>
            rest.foldlM (fun equal other => do equal.and (← other.1.equals other.2)) equal := rfl
      rw [step, first]
      exact further

theorem equals_of_identical {left right : Word} (same : left.identical right = true) :
    left.equals right = pure .one := by
  rw [identical, Bool.and_eq_true] at same
  have alike : allEqual (left.bits.zip right.bits) = pure .one :=
    allEqual_of_identical (List.all_eq_true.mp same.2)
  rw [equals, paired, same.1]
  change (liftM (allEqual (left.bits.zip right.bits)) : Checked Bit) = pure .one
  rw [alike]
  rfl

/-! ## Places -/

/-- One place of an addition: the sum bit and twice the carry are what the two bits
and the entering carry add up to. -/
theorem toNat_xor_add_carry (x y carry : Bool) :
    ((x ^^ y) ^^ carry).toNat + 2 * ((x && y) || (carry && (x ^^ y))).toNat =
      x.toNat + y.toNat + carry.toNat := by
  cases x <;> cases y <;> cases carry <;> rfl

/-- One place of a comparison: where the two bits differ they decide, and otherwise the
verdict on the lower places stands.  A verdict counts like a borrow for the higher ones. -/
theorem place_lt_iff (x y verdict : Bool) (n m : Nat) :
    x.toNat + 2 * n < y.toNat + 2 * m + verdict.toNat ↔
      n < m + (if !(x == y) then !x && y else verdict).toNat := by
  cases x <;> cases y <;> cases verdict <;> simp <;> omega

end Word
end SymbolicMachine
