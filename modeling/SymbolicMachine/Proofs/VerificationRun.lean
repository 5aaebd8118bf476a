import SymbolicMachine.Proofs.Exploration
import SymbolicMachine.Proofs.MultiplierRounds
import SymbolicMachine.Verification.Basic

namespace SymbolicMachine

/-!
# Runs of a verification

Under a valuation of the variables the inputs of a verification describe a processor.  An
interpretation that knows the inputs in this valuation lets every run of the verification
stand for the run of that processor through the multiplier, and the result words denote
what the processor holds in its accumulator and at the address of the low word.
-/

/-- Where a word points in the memory of a processor. -/
def Word.place (valuation : Nat -> Bool) (word : Word) : UInt32 :=
  .ofNat (word.value valuation)

/-- The width that the input of a name has to have. -/
def InputName.width : InputName -> Nat
  | .factor1Address | .factor2Address | .lowAddress => addressBits
  | .memoryBase | .factor1 | .factor2 | .x | .a | .memoryFill => wordBits
  | .carry | .zero => 1

namespace Inputs

/-- Every input has its width. -/
def WellFormed (inputs : Inputs) : Prop :=
  ∀ name, (inputs.get name).toWord.width = name.width

/-- The variables that occur in the inputs. -/
def support (inputs : Inputs) : List Nat :=
  InputName.all.flatMap fun name => (inputs.get name).toWord.support

/-- No two of the three addresses have the same value. -/
def AddressesDiffer (inputs : Inputs) (valuation : Nat -> Bool) : Prop :=
  inputs.factor1Address.value valuation ≠ inputs.factor2Address.value valuation ∧
  inputs.factor1Address.value valuation ≠ inputs.lowAddress.value valuation ∧
  inputs.factor2Address.value valuation ≠ inputs.lowAddress.value valuation

instance (inputs : Inputs) (valuation : Nat -> Bool) :
    Decidable (inputs.AddressesDiffer valuation) :=
  inferInstanceAs (Decidable (_ ∧ _ ∧ _))

/-- The memory from which the multiplier runs under a valuation. -/
def memory (inputs : Inputs) (valuation : Nat -> Bool) : UInt32 -> UInt8 :=
  Function.update
    (Function.update (fun _ => .ofNat (inputs.memoryFill.value valuation))
      (inputs.factor1Address.place valuation) (.ofNat (inputs.factor1.value valuation)))
    (inputs.factor2Address.place valuation) (.ofNat (inputs.factor2.value valuation))

/-- The processor that runs the multiplier under a valuation. -/
def processor (inputs : Inputs) (valuation : Nat -> Bool) : Processor where
  memory := inputs.memory valuation
  x := .ofNat (inputs.x.value valuation)
  a := .ofNat (inputs.a.value valuation)
  carry := inputs.carry.eval valuation
  zero := inputs.zero.eval valuation

end Inputs

namespace Interpretation

/-- Every input denotes its value under a valuation. -/
def Knows (I : Interpretation) (valuation : Nat -> Bool) (inputs : Inputs) : Prop :=
  ∀ name, I.Denotes name.width (inputs.get name).toWord ((inputs.get name).toWord.value valuation)

variable {I : Interpretation} {valuation : Nat -> Bool} {inputs : Inputs}

theorem knows_of_covers {assignment : Assignment} (wellFormed : inputs.WellFormed)
    (covers : assignment.Covers inputs.support) :
    (ofAssignment assignment).Knows assignment.valuation inputs := by
  intro name
  apply denotes_of_covers (wellFormed name)
  exact Assignment.covers_flatMap.mp covers name (InputName.mem_all name)

theorem knows_of_valuation (wellFormed : inputs.WellFormed) (valuation : Nat -> Bool) :
    (ofValuation valuation).Knows valuation inputs := by
  intro name
  rw [← wellFormed name]
  exact denotes_value valuation _

theorem Denotes.reads_bit {bit : Bit} (denotes : I.Denotes 1 (.ofBit bit)
    ((Word.ofBit bit).value valuation)) : I.Reads bit (bit.eval valuation) := by
  rcases denotes with ⟨values, reads, _, same⟩
  cases reads with
  | @cons _ value _ _ head tail =>
      cases tail
      have equal : [value] = [bit.eval valuation] := Word.ofBools_injective rfl same
      rwa [← List.singleton_inj.mp equal]

namespace Knows

theorem initialMachine (knows : I.Knows valuation inputs) (settings : Settings) :
    Succeeds (Verification.initialMachine settings inputs) fun machine =>
      I.Represents settings.strategy machine (inputs.processor valuation) := by
  apply (Represents.cleared settings.strategy (knows .memoryBase).toUInt8).bind
  intro cleared clearedRepresents
  apply (clearedRepresents.fillMemory (knows .memoryFill).toUInt8).bind
  intro filled filledRepresents
  apply (filledRepresents.withRegister .x (knows .x).toUInt8).bind
  intro withX withXRepresents
  apply (withXRepresents.withRegister .a (knows .a).toUInt8).bind
  intro withA withARepresents
  have carryReads : I.Reads inputs.carry (inputs.carry.eval valuation) := (knows .carry).reads_bit
  have zeroReads : I.Reads inputs.zero (inputs.zero.eval valuation) := (knows .zero).reads_bit
  have flagged := (withARepresents.withFlag .carry carryReads).withFlag .zero zeroReads
  apply (flagged.write (knows .factor1Address).toUInt32 (knows .factor1).toUInt8).bind
  intro withFactor withFactorRepresents
  exact withFactorRepresents.write (knows .factor2Address).toUInt32 (knows .factor2).toUInt8

theorem locates (knows : I.Knows valuation inputs) {program : Program}
    (code : program.instructions = Multiplier.instructions inputs.factor1Address
      inputs.factor2Address inputs.lowAddress) :
    I.Locates program (Word.place valuation) := by
  intro instruction member address names
  have operand : address ∈ [inputs.factor1Address, inputs.factor2Address, inputs.lowAddress] := by
    rw [← Multiplier.filterMap_address?, ← code]
    exact List.mem_filterMap.mpr ⟨instruction, member, names⟩
  simp only [List.mem_cons, List.not_mem_nil, or_false] at operand
  rcases operand with rfl | rfl | rfl
  · exact (knows .factor1Address).toUInt32
  · exact (knows .factor2Address).toUInt32
  · exact (knows .lowAddress).toUInt32

/-- A finished run stands for the run of the processor that the inputs describe. -/
theorem run (knows : I.Knows valuation inputs) (settings : Settings) :
    Yields (Verification.run settings inputs) fun run =>
      run.inputs = inputs ∧
      run.program.instructions = Multiplier.instructions inputs.factor1Address
        inputs.factor2Address inputs.lowAddress ∧
      ∃ visited final, Runs run.program (Word.place valuation) (.running 0)
          (inputs.processor valuation) visited final ∧
        I.Represents settings.strategy run.execution.machine final ∧
        I.Denotes wordBits run.high final.a.toNat ∧
        I.Denotes wordBits run.low (final.memory (inputs.lowAddress.place valuation)).toNat := by
  rcases Multiplier.program_eq_ok inputs.factor1Address inputs.factor2Address inputs.lowAddress
    with ⟨program, assembled, code⟩
  unfold Verification.run
  rw [assembled]
  apply Yields.report_bind
  apply Yields.lift_bind (knows.initialMachine settings)
  intro machine represents
  have executed := represents.run (knows.locates code) settings.stepLimit
  apply (executed.adapt Verification.Error.execution).bind
  rintro execution ⟨visited, final, runs, _, represented⟩
  apply Yields.lift_bind (represented.read (knows .lowAddress).toUInt32)
  intro low lowDenotes
  apply Yields.pure
  exact ⟨rfl, code, visited, final, runs, represented, represented.register .a, lowDenotes⟩

end Knows
end Interpretation
end SymbolicMachine
