import SymbolicMachine.Proofs.Arithmetic

namespace SymbolicMachine

/-!
# Literals

Literals can be read without any assignment.  Reading these and no other bits is an
interpretation: the elementary gates fold literals into literals.  What holds under every
interpretation therefore holds of this one, and then says that operations on known operands
have known results.  No bit of such a result is a gate, even if the gate were one that is
always true.
-/

theorem Bit.known_eq_some_iff {bit : Bit} {value : Bool} :
    bit.known = some value ↔ bit = .literal value := by
  cases bit <;> simp [known]

namespace Interpretation

/-- Read the bits that are literals. -/
def ofLiterals : Interpretation where
  value? := Bit.known
  literal _ := rfl
  identical := by
    intro left right x y same leftKnown rightKnown
    rw [Bit.known_eq_some_iff] at leftKnown rightKnown
    subst leftKnown rightKnown
    exact eq_of_beq same
  negation := by
    intro bit x known
    rw [Bit.known_eq_some_iff] at known
    subst known
    exact .pure rfl
  conjunction := by
    intro left right x y leftKnown rightKnown
    rw [Bit.known_eq_some_iff] at leftKnown rightKnown
    subst leftKnown rightKnown
    cases x <;> cases y <;> exact .pure rfl

variable {width n : Nat} {word : Word}

theorem known_eq_some_iff (narrow : word.width ≤ Word.knownBits) :
    word.known = some n ↔ ofLiterals.Denotes word.width word n :=
  valueBy?_eq_some_iff (I := ofLiterals) narrow

namespace Denotes

theorem known (denotes : ofLiterals.Denotes width word n) (narrow : width ≤ Word.knownBits) :
    word.known = some n := by
  have hasWidth := denotes.width_eq
  subst hasWidth
  exact (known_eq_some_iff narrow).mpr denotes

theorem bits_eq_literals {bits : List Bit} {values : List Bool}
    (reads : List.Forall₂ ofLiterals.Reads bits values) : bits = values.map .literal := by
  induction reads with
  | nil => rfl
  | cons head tail ih => rw [List.map_cons, ← ih, ← Bit.known_eq_some_iff.mp head]

/-- A known word is the constant of its number. -/
theorem eq_constant (denotes : ofLiterals.Denotes width word n) : word = .constant n width := by
  rcases denotes with ⟨values, reads, rfl, rfl⟩
  rcases word with ⟨bits⟩
  rw [Word.constant, Word.mk.injEq]
  calc bits = values.map .literal := bits_eq_literals reads
    _ = ((List.range values.length).map (Word.ofBools values).testBit).map .literal := by
        rw [Word.map_testBit_ofBools]
    _ = _ := List.map_map

/-- A known word has its number under every valuation. -/
theorem value_eq (denotes : ofLiterals.Denotes width word n) (valuation : Nat -> Bool) :
    word.value valuation = n := by
  have valued := denotes_value valuation word
  rw [denotes.width_eq] at valued
  rw [denotes.eq_constant] at valued ⊢
  exact valued.unique (denotes_constant_of_lt denotes.lt)

end Denotes
end Interpretation
end SymbolicMachine
