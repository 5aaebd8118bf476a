import SymbolicMachine.Proofs.NormalForm
import SymbolicMachine.Word.Lemmas

namespace SymbolicMachine

/-!
# Bits and words that meet themselves

A bit is recognised in itself, and its negation is recognised as such, whatever it is made of.
The first is what recognised identity is for.  The second is less obvious: a negation gate gets
a wire of its own each time it is placed, and negating a negation gives back what is below it.
So two negations of one bit need not be one circuit.  What a circuit in normal form and its
negations have in common is that they are *opposed*: two different literals, or a bit without
an outer negation beside a gate that negates it.  Opposed bits cancel on either side.

For a negated literal, which is not in normal form, cancellation fails on one side.
-/

namespace Bit

variable {bit denied left right : Bit}

/-! ## Opposed bits -/

/-- One bit is a negation of the other, and it shows. -/
inductive Opposed : Bit -> Bit -> Prop
  | literals (value : Bool) : Opposed (literal value) (literal !value)
  | denied {bit : Bit} (wire : Nat) : bit.Plain -> Opposed bit (notGate wire bit)
  | denial {bit : Bit} (wire : Nat) : bit.Plain -> Opposed (notGate wire bit) bit

namespace Opposed

theorem symm (opposed : Opposed left right) : Opposed right left := by
  cases opposed with
  | literals value => cases value <;> exact .literals _
  | denied wire plain => exact .denial wire plain
  | denial wire plain => exact .denied wire plain

/-- The conjunction of opposed bits needs no gate. -/
theorem and (opposed : Opposed left right) : left.and right = pure zero := by
  have found : conjunction? left right = some zero := by
    cases opposed with
    | literals value => cases value <;> rfl
    | denied wire plain =>
        cases left <;> simp_all [Plain, conjunction?, identical, negates]
    | denial wire plain =>
        cases right <;> simp_all [Plain, conjunction?, identical, negates]
  rw [Bit.and, found]

/-- What is opposed to a bit is opposed to the negation of any negation of it. -/
theorem not (opposed : Opposed bit denied) :
    Gives denied.not fun again => ∀ other, Opposed bit other -> Opposed again other := by
  cases opposed with
  | literals value =>
      refine .pure ?_
      rw [Bool.not_not]
      exact fun other stillOpposed => stillOpposed
  | denied wire plain => exact .pure fun other stillOpposed => stillOpposed
  | denial wire plain =>
      rw [plain.not]
      intro session other stillOpposed
      cases stillOpposed with
      | denied wire impossible => cases impossible
      | denial wire _ => exact .denial _ plain

end Opposed

theorem Normal.not (normal : bit.Normal) : Gives bit.not (Opposed bit) := by
  cases bit with
  | literal value => exact .pure (.literals value)
  | var id => exact fun session => .denied _ trivial
  | notGate wire input => exact .pure (.denial wire normal.plain_of_notGate)
  | andGate leftWire left rightWire right => exact fun session => .denied _ trivial

/-! ## Connectives of a bit with itself -/

/-- A bit meets itself and its negation as a truth value does. -/
structure Cancels (bit : Bit) : Prop where
  and_self : bit.and bit = pure bit
  select_self : ∀ condition : Bit, condition.select bit bit = pure bit
  and_not : Gives (do bit.and (← bit.not)) fun result => result = zero
  not_and : Gives (do (← bit.not).and bit) fun result => result = zero
  xor_self : Gives (bit.xor bit) fun result => result = zero
  or_not : Gives (do bit.or (← bit.not)) fun result => result = one
  equals_self : bit.equals bit = pure one
  implies_self : Gives (bit.implies bit) fun result => result = one

theorem and_self (bit : Bit) : bit.and bit = pure bit := by
  have found : conjunction? bit bit = some bit := if_pos (identical_refl bit)
  rw [Bit.and, found]

theorem equals_self (bit : Bit) : bit.equals bit = pure one :=
  if_pos (identical_refl bit)

namespace Normal

theorem and_not (normal : bit.Normal) :
    Gives (do bit.and (← bit.not)) fun result => result = zero := by
  refine normal.not.bind fun denied opposed => ?_
  rw [opposed.and]
  exact .pure rfl

theorem not_and (normal : bit.Normal) :
    Gives (do (← bit.not).and bit) fun result => result = zero := by
  refine normal.not.bind fun denied opposed => ?_
  rw [opposed.symm.and]
  exact .pure rfl

theorem xor_self (normal : bit.Normal) : Gives (bit.xor bit) fun result => result = zero := by
  refine normal.not.bind fun noRight rightOpposed => ?_
  rw [rightOpposed.and, pure_bind]
  refine normal.not.bind fun noLeft leftOpposed => ?_
  rw [leftOpposed.symm.and, pure_bind]
  exact .pure rfl

theorem or_not (normal : bit.Normal) :
    Gives (do bit.or (← bit.not)) fun result => result = one := by
  refine normal.not.bind fun denied deniedOpposed => ?_
  refine normal.not.bind fun noLeft leftOpposed => ?_
  refine deniedOpposed.not.bind fun noRight opposedAgain => ?_
  rw [(opposedAgain noLeft leftOpposed).symm.and]
  exact .pure rfl

theorem implies_self (normal : bit.Normal) :
    Gives (bit.implies bit) fun result => result = one := by
  refine normal.not.bind fun excused excusedOpposed => ?_
  refine excusedOpposed.not.bind fun premise opposedAgain => ?_
  refine normal.not.bind fun noConclusion conclusionOpposed => ?_
  rw [(opposedAgain noConclusion conclusionOpposed).and]
  exact .pure rfl

theorem cancels (normal : bit.Normal) : bit.Cancels where
  and_self := Bit.and_self bit
  select_self condition := Bit.select_self condition bit
  and_not := normal.and_not
  not_and := normal.not_and
  xor_self := normal.xor_self
  or_not := normal.or_not
  equals_self := Bit.equals_self bit
  implies_self := normal.implies_self

end Normal
end Bit

/-! ## Operations of a word with itself -/

namespace Word

/-- A word compares with itself and cancels itself as a number does. -/
structure Cancels (word : Word) : Prop where
  equals_self : word.equals word = pure .one
  differs_self : word.differs word = pure .zero
  lessThan_self : Succeeds (word.lessThan word) fun result => result = .zero
  xor_self : Succeeds (word.xor word) fun result => result = zero word.width
  select_self : ∀ condition : Bit, select condition word word = pure word

theorem paired_self (word : Word) :
    paired word word = pure (word.bits.map fun bit => (bit, bit)) := by
  have doubled : word.bits.zip word.bits = word.bits.map fun bit => (bit, bit) := by
    simpa using List.zip_map' (f := id) (g := id) (l := word.bits)
  rw [paired, doubled, require, beq_self_eq_true, if_pos rfl, pure_bind]

theorem differs_self (word : Word) : word.differs word = pure .zero := by
  rw [differs, equals_of_identical word.identical_refl]
  rfl

theorem combine_xor_self {bits : List Bit} (normal : ∀ bit ∈ bits, bit.Normal) :
    Gives (combine Bit.xor (bits.map fun bit => (bit, bit))) fun result =>
      result = List.replicate bits.length .zero := by
  induction bits with
  | nil => exact .pure rfl
  | cons bit rest ih =>
      rw [List.forall_mem_cons] at normal
      rw [combine, List.map_cons, List.mapM_cons]
      refine normal.1.xor_self.bind ?_
      rintro _ rfl
      refine (ih normal.2).bind ?_
      rintro _ rfl
      exact .pure rfl

/-- No place of a word decides against itself, so the verdict stays what it is at first. -/
theorem rippleLess_self {bits : List Bit} (normal : ∀ bit ∈ bits, bit.Normal) :
    Gives (rippleLess (bits.map fun bit => (bit, bit))) fun result => result = .zero := by
  refine Gives.foldlM (by rfl) ?_
  rintro pair member _ rfl
  rcases List.mem_map.mp member with ⟨bit, present, rfl⟩
  -- Between zero and zero it does not matter whether the bits are found to differ.
  refine (Gives.any _).bind fun equal _ => (Gives.any _).bind fun differs _ => ?_
  refine (normal bit present).not.bind fun noLeft opposed => ?_
  rw [opposed.symm.and, pure_bind, Bit.select_self]
  exact .pure rfl

theorem cancels {word : Word} (normal : word.Each Bit.Normal) : word.Cancels where
  equals_self := equals_of_identical word.identical_refl
  differs_self := word.differs_self
  lessThan_self := by
    rw [lessThan, paired_self, pure_bind]
    exact Succeeds.lift (rippleLess_self normal)
  xor_self := by
    rw [xor, bitwise, paired_self, pure_bind]
    refine (Succeeds.lift (combine_xor_self normal)).bind ?_
    rintro _ rfl
    exact .pure rfl
  select_self condition := Word.select_self condition word

end Word

/-! ## Everything that is composed -/

/-- Bits and words that operations make of literals and variables, whatever they share, meet
themselves as the values do that they stand for. -/
theorem composed_cancels {allowed : Nat -> Prop} :
    (∀ {bit : Bit}, bit.Composed allowed -> bit.Cancels) ∧
    (∀ {word : Word}, word.Each (Bit.Composed allowed) -> word.Cancels) :=
  ⟨fun composed => composed.normal.cancels,
    fun each => Word.cancels fun bit member => (each bit member).normal⟩

/-- The exclusive disjunction of a conjunction and a variable cancels, and so does the word that
it forms with a literal and the conjunction that it shares. -/
theorem composed_cancels_shared :
    ∃ shared deep : Bit,
      ((Connective.and (.var 0) (.var 1)).build.run {}).1 = shared ∧
      ((Connective.xor shared (.var 2)).build.run { nextName := 2 }).1 = deep ∧
      (deep.Composed (· < 3) ∧ deep.support = [0, 1, 2, 0, 1, 2] ∧ deep.Cancels) ∧
      (Word.Each (Bit.Composed (· < 3)) ⟨[deep, .one, shared]⟩ ∧
        Word.Cancels ⟨[deep, .one, shared]⟩) := by
  have sharedComposed : ((Connective.and (.var 0) (.var 1)).build.run {}).1.Composed (· < 3) := by
    apply Bit.Composed.build
    simp only [Connective.operands, List.forall_mem_cons, List.not_mem_nil, false_implies,
      implies_true, and_true]
    exact ⟨.var (by decide), .var (by decide)⟩
  have deepComposed : ((Connective.xor ((Connective.and (.var 0) (.var 1)).build.run {}).1
      (.var 2)).build.run { nextName := 2 }).1.Composed (· < 3) := by
    apply Bit.Composed.build
    simp only [Connective.operands, List.forall_mem_cons, List.not_mem_nil, false_implies,
      implies_true, and_true]
    exact ⟨sharedComposed, .var (by decide)⟩
  have each : Word.Each (Bit.Composed (· < 3)) ⟨[_, .one, _]⟩ :=
    List.forall_mem_cons.mpr ⟨deepComposed, List.forall_mem_cons.mpr
      ⟨.literal true, List.forall_mem_singleton.mpr sharedComposed⟩⟩
  exact ⟨_, _, rfl, rfl, ⟨deepComposed, by decide, composed_cancels.1 deepComposed⟩,
    each, composed_cancels.2 each⟩

end SymbolicMachine
