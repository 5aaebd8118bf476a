import SymbolicMachine.Proofs.Literals
import SymbolicMachine.Word.Conversion

namespace SymbolicMachine

/-!
# Which words denote numbers

A word denotes a number of a given size just if all its bits are literals and its value is small
enough.  Where it does not, two kinds of bits may stand in the way, in any order, and the lowest of
them is reported.

The loop that finds the number goes from bit to bit with the index at hand.  Whether it goes on at a
bit and what it reports there depends on this bit and this index alone, and everything about whole
words follows by induction from that.
-/

/-- A bit stands in the way of a number of `size` bits if it has this index, and is reported so. -/
inductive Bit.Obstructs (size index : Nat) : Bit -> ConversionError -> Prop
  /-- The bit is not a literal. -/
  | nonLiteral {bit : Bit} : bit.known = none -> Obstructs size index bit (.nonLiteral index)
  /-- The bit is a one at a place that the size does not have. -/
  | overflow : size ≤ index -> Obstructs size index (.literal true) (.overflow size)

namespace Bit.Obstructs

variable {size index : Nat} {bit : Bit} {cause other : ConversionError}

theorem unique (obstructs : bit.Obstructs size index cause)
    (again : bit.Obstructs size index other) : cause = other := by
  cases obstructs with
  | nonLiteral unknown =>
      cases again with
      | nonLiteral => rfl
      | overflow => cases unknown
  | overflow =>
      cases again with
      | nonLiteral unknown => cases unknown
      | overflow => rfl

/-- A bit that does not stand in the way is a literal, and a zero where there is no place. -/
theorem exists_literal (clear : ¬ ∃ cause, bit.Obstructs size index cause) :
    ∃ value, bit = .literal value ∧ (size ≤ index -> value = false) := by
  cases known : bit.known with
  | none => exact absurd ⟨_, nonLiteral known⟩ clear
  | some value =>
      have literal := Bit.known_eq_some_iff.mp known
      subst literal
      refine ⟨value, rfl, fun outside => ?_⟩
      cases value with
      | false => rfl
      | true => exact absurd ⟨_, overflow outside⟩ clear

end Bit.Obstructs

namespace Word

variable {size start index number : Nat} {bit : Bit} {rest bits : List Bit} {word : Word}
variable {cause : ConversionError}

/-! ## Bit by bit -/

theorem numberFrom_of_obstructs (obstructs : bit.Obstructs size index cause) :
    numberFrom size index (bit :: rest) = .error cause := by
  cases obstructs with
  | nonLiteral unknown =>
      rw [numberFrom, unknown]
      rfl
  | overflow outside =>
      rw [numberFrom, Bit.known, decide_eq_true outside]
      rfl

theorem numberFrom_of_clear {value : Bool} (clear : size ≤ index -> value = false) :
    numberFrom size index (.literal value :: rest) =
      (numberFrom size (index + 1) rest).map fun higher => value.toNat + 2 * higher := by
  have fits : (decide (size ≤ index) && value) = false := by
    cases value <;> simp_all
  rw [numberFrom, Bit.known]
  simp only [fits, Bool.false_eq_true, if_false]
  cases numberFrom size (index + 1) rest <;> rfl

/-- The lowest bit that stands in the way is reported so, if indices are counted from `start`. -/
def FirstObstructed (size start : Nat) (bits : List Bit) (cause : ConversionError) : Prop :=
  ∃ (place : Nat) (bit : Bit), bits[place]? = some bit ∧ bit.Obstructs size (start + place) cause ∧
    ∀ (earlier : Nat) (other : Bit), earlier < place -> bits[earlier]? = some other ->
      ¬ ∃ reason, other.Obstructs size (start + earlier) reason

theorem firstObstructed_of_obstructs {reason : ConversionError}
    (obstructs : bit.Obstructs size start reason) :
    FirstObstructed size start (bit :: rest) cause ↔ reason = cause := by
  constructor
  · rintro ⟨place, other, found, here, before⟩
    cases place with
    | zero =>
        cases found
        exact obstructs.unique here
    | succ place => exact absurd ⟨reason, obstructs⟩ (before 0 bit place.succ_pos rfl)
  · rintro rfl
    exact ⟨0, bit, rfl, obstructs, fun earlier _ below => absurd below earlier.not_lt_zero⟩

theorem firstObstructed_of_clear (clear : ¬ ∃ reason, bit.Obstructs size start reason) :
    FirstObstructed size start (bit :: rest) cause ↔
      FirstObstructed size (start + 1) rest cause := by
  have shifted : ∀ place, start + 1 + place = start + (place + 1) := fun _ => by omega
  constructor
  · rintro ⟨place, other, found, obstructs, before⟩
    cases place with
    | zero =>
        cases found
        exact absurd ⟨cause, obstructs⟩ clear
    | succ place =>
        refine ⟨place, other, found, shifted place ▸ obstructs, ?_⟩
        intro earlier passed below there
        rw [shifted]
        exact before (earlier + 1) passed (Nat.succ_lt_succ below) there
  · rintro ⟨place, other, found, obstructs, before⟩
    refine ⟨place + 1, other, found, shifted place ▸ obstructs, ?_⟩
    intro earlier passed below there
    cases earlier with
    | zero =>
        cases there
        exact clear
    | succ earlier =>
        rw [← shifted]
        exact before earlier passed (Nat.lt_of_succ_lt_succ below) there

theorem numberFrom_eq_error_iff :
    numberFrom size start bits = .error cause ↔ FirstObstructed size start bits cause := by
  induction bits generalizing start with
  | nil => simp [numberFrom, FirstObstructed, pure, Except.pure]
  | cons first rest ih =>
      by_cases blocked : ∃ reason, first.Obstructs size start reason
      · rcases blocked with ⟨reason, obstructs⟩
        rw [numberFrom_of_obstructs obstructs, firstObstructed_of_obstructs obstructs,
          Except.error.injEq]
      · rw [firstObstructed_of_clear blocked, ← ih]
        rcases Bit.Obstructs.exists_literal blocked with ⟨value, rfl, clear⟩
        rw [numberFrom_of_clear clear]
        cases numberFrom size (start + 1) rest <;> simp [Except.map]

/-- One more place below leaves room for one bit more. -/
theorem lt_two_pow_sub_iff {value : Bool} {higher : Nat} (clear : size ≤ start -> value = false) :
    value.toNat + 2 * higher < 2 ^ (size - start) ↔ higher < 2 ^ (size - (start + 1)) := by
  by_cases outside : size ≤ start
  · rw [clear outside, Nat.sub_eq_zero_of_le outside, Nat.sub_eq_zero_of_le (by omega)]
    simp
  · have further : size - start = size - (start + 1) + 1 := by omega
    have digit := value.toNat_le
    rw [further, Nat.pow_succ]
    omega

open Interpretation in
/-- The number is found if all bits are literals and it fits into the places that are left. -/
theorem numberFrom_eq_ok_iff :
    numberFrom size start bits = .ok number ↔
      ∃ values, List.Forall₂ ofLiterals.Reads bits values ∧ ofBools values = number ∧
        number < 2 ^ (size - start) := by
  induction bits generalizing start number with
  | nil =>
      constructor
      · rintro ⟨⟩
        exact ⟨[], .nil, rfl, Nat.two_pow_pos _⟩
      · rintro ⟨_, ⟨⟩, rfl, _⟩
        rfl
  | cons first rest ih =>
      by_cases blocked : ∃ reason, first.Obstructs size start reason
      · rcases blocked with ⟨reason, obstructs⟩
        rw [numberFrom_of_obstructs obstructs]
        refine iff_of_false (by simp) ?_
        rintro ⟨_, _ | ⟨head, _⟩, rfl, fits⟩
        cases obstructs with
        | nonLiteral unknown => cases unknown.symm.trans head
        | overflow outside =>
            cases head
            rw [Nat.sub_eq_zero_of_le outside, ofBools] at fits
            simp at fits
      · rcases Bit.Obstructs.exists_literal blocked with ⟨value, rfl, clear⟩
        rw [numberFrom_of_clear clear]
        constructor
        · intro found
          cases higher : numberFrom size (start + 1) rest with
          | error cause => rw [higher] at found; cases found
          | ok m =>
              rw [higher] at found
              cases found
              rcases ih.mp higher with ⟨values, reads, rfl, fits⟩
              exact ⟨value :: values, .cons rfl reads, rfl, (lt_two_pow_sub_iff clear).mpr fits⟩
        · rintro ⟨_, _ | ⟨head, tail⟩, rfl, fits⟩
          cases head
          have found := ih.mpr ⟨_, tail, rfl, (lt_two_pow_sub_iff clear).mp fits⟩
          rw [found]
          rfl

/-! ## Whole words -/

open Interpretation in
theorem toNumber_eq_ok_iff :
    word.toNumber size = .ok number ↔
      ofLiterals.Denotes word.width word number ∧ number < 2 ^ size := by
  rw [toNumber, numberFrom_eq_ok_iff, Nat.sub_zero]
  constructor
  · rintro ⟨values, reads, rfl, fits⟩
    exact ⟨⟨values, reads, reads.length_eq.symm, rfl⟩, fits⟩
  · rintro ⟨⟨values, reads, _, rfl⟩, fits⟩
    exact ⟨values, reads, rfl, fits⟩

open Interpretation in
/-- A word of literals, and no other, denotes its value without any assignment. -/
theorem denotes_literals_iff (valuation : Nat -> Bool) :
    ofLiterals.Denotes word.width word number ↔
      (∀ bit ∈ word.bits, ∃ value, bit = .literal value) ∧ number = word.value valuation := by
  constructor
  · intro denotes
    refine ⟨?_, (denotes.value_eq valuation).symm⟩
    rcases denotes with ⟨values, reads, _, _⟩
    rw [Denotes.bits_eq_literals reads]
    intro bit member
    rcases List.mem_map.mp member with ⟨value, _, rfl⟩
    exact ⟨value, rfl⟩
  · rintro ⟨literals, rfl⟩
    refine ⟨word.bits.map (Bit.eval valuation), ?_, List.length_map _, rfl⟩
    rw [List.forall₂_map_right_iff, List.forall₂_same]
    intro bit member
    rcases literals bit member with ⟨value, rfl⟩
    rfl

theorem toNumber_zeroExtend_constant (fits : number < 2 ^ size) (amount : Nat) :
    ((constant number size).zeroExtend amount).toNumber size = .ok number := by
  rw [toNumber_eq_ok_iff, width_zeroExtend, width_constant]
  exact ⟨(Interpretation.denotes_constant_of_lt fits).zeroExtend amount, fits⟩

theorem known_eq_some_iff_toNumber (narrow : word.width ≤ knownBits) :
    word.known = some number ↔ word.toNumber knownBits = .ok number := by
  rw [Interpretation.known_eq_some_iff narrow, toNumber_eq_ok_iff]
  refine ⟨fun denotes => ⟨denotes, ?_⟩, And.left⟩
  exact Nat.lt_of_lt_of_le denotes.lt (Nat.pow_le_pow_right Nat.two_pos narrow)

/-- Words convert to numbers exactly where they denote some.  A word converts just if its bits
are literals and its value has the wanted size, and then to its value.  Otherwise the error is
the one of the lowest bit that stands in the way.  A number comes back from its word, however far
this is extended, and words that are narrow enough are known just if they convert. -/
theorem toNumber_exact :
    (∀ (word : Word) (size number : Nat) (valuation : Nat -> Bool),
      word.toNumber size = .ok number ↔
        (∀ bit ∈ word.bits, ∃ value, bit = .literal value) ∧
          word.value valuation < 2 ^ size ∧ number = word.value valuation) ∧
    (∀ (word : Word) (size : Nat) (cause : ConversionError),
      word.toNumber size = .error cause ↔
        ∃ (index : Nat) (bit : Bit),
          word.bits[index]? = some bit ∧ bit.Obstructs size index cause ∧
          ∀ (earlier : Nat) (other : Bit), earlier < index -> word.bits[earlier]? = some other ->
            ¬ ∃ reason, other.Obstructs size earlier reason) ∧
    (∀ size number amount : Nat, number < 2 ^ size ->
      ((constant number size).zeroExtend amount).toNumber size = .ok number) ∧
    ∀ (word : Word) (number : Nat), word.width ≤ knownBits ->
      (word.known = some number ↔ word.toNumber knownBits = .ok number) := by
  refine ⟨?_, ?_, fun _ _ amount fits => toNumber_zeroExtend_constant fits amount,
    fun _ _ narrow => known_eq_some_iff_toNumber narrow⟩
  · intro word size number valuation
    rw [toNumber_eq_ok_iff, denotes_literals_iff valuation]
    constructor
    · rintro ⟨⟨literals, rfl⟩, fits⟩
      exact ⟨literals, fits, rfl⟩
    · rintro ⟨literals, fits, rfl⟩
      exact ⟨⟨literals, rfl⟩, fits⟩
  · intro word size cause
    rw [toNumber, numberFrom_eq_error_iff, FirstObstructed]
    simp only [Nat.zero_add]

/-- A one that is too high is reported although an open bit stands above it, and an open bit
although such a one stands above it. -/
theorem toNumber_exact_examples :
    let high : Word := ⟨(constant 255 8).bits ++ [.one, .var 0]⟩
    let mixed : Word := ⟨(constant 255 8).bits ++ [.zero, .var 0, .one]⟩
    (high.toNumber 8 = .error (.overflow 8) ∧
      ∃ (index : Nat) (bit : Bit), high.bits[index]? = some bit ∧
        bit.Obstructs 8 index (.overflow 8)) ∧
    (mixed.toNumber 8 = .error (.nonLiteral 9) ∧
      ∃ (index : Nat) (bit : Bit), mixed.bits[index]? = some bit ∧
        bit.Obstructs 8 index (.nonLiteral 9)) ∧
    (200 < 2 ^ 8 ∧ ((constant 200 8).zeroExtend 100).toNumber 8 = .ok 200) ∧
    (constant 200 8).width ≤ knownBits ∧ (constant 200 8).known = some 200 ∧
      (constant 200 8).toNumber knownBits = .ok 200 := by
  intro high mixed
  rcases toNumber_exact with ⟨_, errors, back, narrow⟩
  have highFails : high.toNumber 8 = .error (.overflow 8) := by decide +kernel
  have mixedFails : mixed.toNumber 8 = .error (.nonLiteral 9) := by decide +kernel
  rcases (errors high 8 _).mp highFails with ⟨highIndex, highBit, highFound, highObstructs, _⟩
  rcases (errors mixed 8 _).mp mixedFails with ⟨index, bit, found, obstructs, _⟩
  have known : (constant 200 8).known = some 200 := by decide +kernel
  have width : (constant 200 8).width ≤ knownBits := by decide
  exact ⟨⟨highFails, highIndex, highBit, highFound, highObstructs⟩,
    ⟨mixedFails, index, bit, found, obstructs⟩, ⟨by decide, back 8 200 100 (by decide)⟩,
    width, known, (narrow _ 200 width).mp known⟩

end Word
end SymbolicMachine
