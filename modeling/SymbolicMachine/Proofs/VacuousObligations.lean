import Mathlib.Data.Fintype.Basic
import Mathlib.Data.List.Zip
import Mathlib.Tactic.FinCases
import SymbolicMachine.Proofs.Literals
import SymbolicMachine.Proofs.ObligationMeaning

namespace SymbolicMachine

/-!
# Obligations that ask for nothing

An obligation is vacuous if its precondition is the literal zero, which nothing but
simplification can make of it.  Comparing two words that are recognised as one places no gate
for any of their bits, and a conjunct that is zero makes a conjunction zero, whatever stands
beside it.  So two addresses that are recognised as one leave nothing to be proved.

The converse cannot go back to recognition.  Of the addresses 0, 1 and one with a single open
bit no two are recognised as one, and yet two of them are always equal.  What holds is that
simplification is sound: a precondition that became zero is false under every valuation, so
whatever the variables are, two of the addresses are the same number.
-/

/-! ## Zeros -/

namespace Bit

theorem zero_and (right : Bit) : zero.and right = pure zero := by
  have found : conjunction? zero right = some zero := ite_self _
  rw [and, found]

theorem and_zero (left : Bit) : left.and zero = pure zero := by
  have found : conjunction? left zero = some zero := by
    cases left with
    | literal value => cases value <;> rfl
    | var id => rfl
    | notGate wire input => exact ite_self _
    | andGate leftWire left rightWire right => rfl
  rw [and, found]

/-- A conjunct that is zero decides a conjunction, on either side and beside any bit. -/
theorem gives_and_eq_zero (left right : Bit) :
    Gives (left.and right) fun result => left = .zero ∨ right = .zero -> result = .zero := by
  by_cases leftZero : left = .zero
  · rw [leftZero, zero_and]
    exact .pure fun _ => rfl
  by_cases rightZero : right = .zero
  · rw [rightZero, and_zero]
    exact .pure fun _ => rfl
  · intro session either
    exact absurd either (not_or.mpr ⟨leftZero, rightZero⟩)

/-- Whatever it is that would follow, an implication from zero is one. -/
theorem gives_zero_implies (conclusion : Bit) :
    Gives (zero.implies conclusion) fun result => result = .one := by
  have excused : zero.implies conclusion = conclusion.not >>= fun noConclusion =>
      zero.and noConclusion >>= Bit.not := rfl
  rw [excused]
  intro session
  simp only [zero_and]
  rfl

end Bit

/-! ## Words that are recognised as one -/

namespace Word

theorem identical_comm (left right : Word) : left.identical right = right.identical left := by
  rw [identical, identical, Bool.beq_comm, ← List.zip_swap, List.all_map]
  congr 2
  funext pair
  exact Bit.identical_comm pair.2 pair.1

theorem returns_differs_eq_zero (left right : Word) :
    Returns (left.differs right) fun result => left.identical right = true -> result = .zero := by
  by_cases same : left.identical right = true
  · rw [differs, equals_of_identical same]
    exact .pure fun _ => rfl
  · apply (Returns.any _).mono
    intro result _ identical
    exact absurd identical same

end Word

/-! ## Addresses -/

/-- A symmetric relation holds between two of three if it holds for one of three pairs. -/
theorem exists_ne_iff {relation : Fin 3 -> Fin 3 -> Prop}
    (symmetric : ∀ i j, relation i j -> relation j i) :
    (∃ i j, i ≠ j ∧ relation i j) ↔ relation 0 1 ∨ relation 0 2 ∨ relation 1 2 := by
  constructor
  · intro found
    rcases found with ⟨i, j, different, related⟩
    have converse := symmetric i j related
    fin_cases i <;> fin_cases j <;> simp_all
  · intro found
    rcases found with related | related | related
    · exact ⟨0, 1, by decide, related⟩
    · exact ⟨0, 2, by decide, related⟩
    · exact ⟨1, 2, by decide, related⟩

namespace Inputs

/-- The addresses of the two factors and of the low word of the product. -/
def address (inputs : Inputs) : Fin 3 -> Word
  | 0 => inputs.factor1Address
  | 1 => inputs.factor2Address
  | 2 => inputs.lowAddress

/-- Two of the addresses are recognised as one. -/
def Aliased (inputs : Inputs) : Prop :=
  ∃ i j, i ≠ j ∧ (inputs.address i).identical (inputs.address j) = true

theorem aliased_iff {inputs : Inputs} :
    inputs.Aliased ↔
      inputs.factor1Address.identical inputs.factor2Address = true ∨
      inputs.factor1Address.identical inputs.lowAddress = true ∨
      inputs.factor2Address.identical inputs.lowAddress = true := by
  apply exists_ne_iff
  intro i j same
  rwa [Word.identical_comm]

end Inputs

/-! ## Vacuous obligations -/

namespace Obligation

theorem Proportioned.width_address {inputs : Inputs} {high low : Word} {width : Nat}
    (proportioned : Proportioned inputs high low width) (i : Fin 3) :
    (inputs.address i).width = width := by
  fin_cases i
  · exact proportioned.factor1Address
  · exact proportioned.factor2Address
  · exact proportioned.lowAddress

theorem gives_statement_of_isVacuous {obligation : Obligation}
    (vacuous : obligation.isVacuous = true) :
    Gives obligation.statement fun statement => statement = .one := by
  have never : obligation.precondition = .zero := Bit.known_eq_some_iff.mp (eq_of_beq vacuous)
  rw [statement, never]
  exact Bit.gives_zero_implies obligation.conclusion

theorem returns_distinctAddresses (inputs : Inputs) :
    Returns (distinctAddresses inputs) fun precondition =>
      inputs.Aliased -> precondition = .zero := by
  apply (Word.returns_differs_eq_zero _ _).bind
  intro factorsDiffer factorsAlias
  apply (Word.returns_differs_eq_zero _ _).bind
  intro firstDiffers firstAliases
  apply (Succeeds.lift (Bit.gives_and_eq_zero factorsDiffer firstDiffers)).returns.bind
  intro both bothZero
  apply (Word.returns_differs_eq_zero _ _).bind
  intro secondDiffers secondAliases
  apply (Succeeds.lift (Bit.gives_and_eq_zero both secondDiffers)).returns.mono
  intro precondition allZero aliased
  apply allZero
  rcases Inputs.aliased_iff.mp aliased with same | same | same
  · exact .inl (bothZero (.inl (factorsAlias same)))
  · exact .inl (bothZero (.inr (firstAliases same)))
  · exact .inr (secondAliases same)

theorem returns_isVacuous (inputs : Inputs) (high low : Word) :
    Returns (ofResult inputs high low) fun obligation =>
      inputs.Aliased -> obligation.isVacuous = true := by
  apply (returns_distinctAddresses inputs).bind
  intro precondition zeroIfAliased
  apply (Returns.any (isProduct inputs high low)).bind
  intro conclusion _
  apply Returns.pure
  intro aliased
  rw [isVacuous, zeroIfAliased aliased]
  rfl

/-- A vacuous obligation comes of addresses of which, under every valuation, two are the same
number. -/
theorem succeeds_value_eq {inputs : Inputs} {high low : Word} {width : Nat}
    (proportioned : Proportioned inputs high low width) :
    Succeeds (ofResult inputs high low) fun obligation =>
      ∀ valuation : Nat -> Bool, obligation.isVacuous = true ->
        ∃ i j, i ≠ j ∧
          (inputs.address i).value valuation = (inputs.address j).value valuation := by
  apply Succeeds.all
  intro valuation
  have denotes : ∀ {word : Word} {width : Nat}, word.width = width ->
      (Interpretation.ofValuation valuation).Denotes width word (word.value valuation) := by
    rintro word _ rfl
    exact Interpretation.denotes_value valuation word
  apply (Interpretation.reads_ofResult (denotes proportioned.factor1Address)
    (denotes proportioned.factor2Address) (denotes proportioned.lowAddress)
    (denotes proportioned.factor1) (denotes proportioned.factor2) (denotes proportioned.high)
    (denotes proportioned.low)).mono
  intro obligation reads vacuous
  rcases reads with ⟨preconditionReads, _⟩
  have never := preconditionReads.eq_of_known (eq_of_beq vacuous)
  rw [exists_ne_iff fun i j same => same.symm]
  by_contra none
  rw [not_or, not_or] at none
  exact of_decide_eq_false never none

/-- Addresses that are recognised as one make an obligation vacuous, and nothing but addresses
that are equal does.  If two of the three addresses are recognised as one, the precondition is
known never to hold.  Wherever it is, the statement is the literal one, and under every
assignment of the variables in the addresses two of these are found to be the same number. -/
theorem vacuous_through_aliasing {inputs : Inputs} {high low : Word} {width : Nat}
    (proportioned : Proportioned inputs high low width) :
    Succeeds (ofResult inputs high low) fun obligation =>
      (inputs.Aliased ->
        obligation.isVacuous = true ∧ Gives obligation.statement (· = .one)) ∧
      (obligation.isVacuous = true ->
        Gives obligation.statement (· = .one) ∧
        ∀ assignment : Assignment, (∀ i, assignment.Covers (inputs.address i).support) ->
          ∃ i j number, i ≠ j ∧ assignment.Finds width (inputs.address i) number ∧
            assignment.Finds width (inputs.address j) number) := by
  apply ((succeeds_value_eq proportioned).and_returns (returns_isVacuous inputs high low)).mono
  intro obligation holds
  rcases holds with ⟨meets, vacuousIfAliased⟩
  refine ⟨?_, ?_⟩
  · intro aliased
    have vacuous := vacuousIfAliased aliased
    exact ⟨vacuous, gives_statement_of_isVacuous vacuous⟩
  · intro vacuous
    refine ⟨gives_statement_of_isVacuous vacuous, ?_⟩
    intro assignment covers
    rcases meets assignment.valuation vacuous with ⟨i, j, different, same⟩
    have finds : ∀ i, assignment.Finds width (inputs.address i)
        ((inputs.address i).value assignment.valuation) := by
      intro i
      exact (Interpretation.denotes_of_covers (proportioned.width_address i) (covers i)).finds
    refine ⟨i, j, _, different, finds i, ?_⟩
    rw [same]
    exact finds j

/-- Inputs with these addresses and nothing but zeros. -/
def zerosAt (first second target : Word) : Inputs where
  memoryBase := .zero 8
  factor1Address := first
  factor1 := .zero 8
  factor2Address := second
  factor2 := .zero 8
  lowAddress := target
  x := .zero 8
  a := .zero 8
  memoryFill := .zero 8
  carry := .zero
  zero := .zero

/-- The second factor is where the low word goes, and all addresses are open.  Then there are the
addresses 0, 1 and one of them: no two are recognised as one, but an obligation on them is
vacuous all the same, and two of them are 1 if the third is. -/
theorem vacuous_through_aliasing_examples :
    let unknown (first width : Nat) : Word := ⟨(List.range' first width).map .var⟩
    let high : Word := .constant 2 8
    let low := unknown 64 8
    let shared := zerosAt (unknown 0 32) (unknown 32 32) (unknown 32 32)
    let crowded := zerosAt (.zero 32) (.constant 1 32) ⟨.var 0 :: List.replicate 31 .zero⟩
    let assignment : Assignment := .ofList [(0, true)]
    Proportioned shared high low 32 ∧ shared.Aliased ∧
    (Succeeds (ofResult shared high low) fun obligation =>
      obligation.isVacuous = true ∧ Gives obligation.statement (· = .one)) ∧
    Proportioned crowded high low 32 ∧ ¬ crowded.Aliased ∧
    ∃ obligation, ((ofResult crowded high low).run.run {}).1 = .ok obligation ∧
      obligation.isVacuous = true ∧ (∀ i, assignment.Covers (crowded.address i).support) ∧
      ∃ i j number, i ≠ j ∧ assignment.Finds 32 (crowded.address i) number ∧
        assignment.Finds 32 (crowded.address j) number := by
  intro unknown high low shared crowded assignment
  have sharedProportioned : Proportioned shared high low 32 :=
    ⟨rfl, rfl, rfl, rfl, rfl, rfl, rfl⟩
  have crowdedProportioned : Proportioned crowded high low 32 :=
    ⟨rfl, rfl, rfl, rfl, rfl, rfl, rfl⟩
  have aliased : shared.Aliased := ⟨1, 2, by decide, by decide⟩
  have apart : ¬ crowded.Aliased := by
    rw [Inputs.aliased_iff]
    decide
  have covers : ∀ i, assignment.Covers (crowded.address i).support := by
    decide
  refine ⟨sharedProportioned, aliased, ?_, crowdedProportioned, apart, ?_⟩
  · apply (vacuous_through_aliasing sharedProportioned).mono
    intro obligation holds
    rcases holds with ⟨whenAliased, _⟩
    exact whenAliased aliased
  · rcases vacuous_through_aliasing crowdedProportioned {} with ⟨obligation, ended, _, whenVacuous⟩
    have vacuous : obligation.isVacuous = true := by
      have found : (((ofResult crowded high low).run.run {}).1.toOption.any isVacuous) = true := by
        decide +kernel
      rw [ended] at found
      exact found
    exact ⟨obligation, ended, vacuous, covers, (whenVacuous vacuous).2 assignment covers⟩

end Obligation
end SymbolicMachine
