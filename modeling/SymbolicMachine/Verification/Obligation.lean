import SymbolicMachine.Verification.Inputs
import SymbolicMachine.Word.Arithmetic

namespace SymbolicMachine

/-!
# The proof obligation

The multiplier has to leave the product of the factors in its two result words,
provided that the three addresses differ from each other.  Both sides of this
implication are bits over the inputs.
-/

/-- An implication between two bits that has to hold for all inputs. -/
structure Obligation where
  precondition : Bit
  conclusion : Bit
  deriving DecidableEq, Repr

namespace Obligation

/-- The implication as one bit. -/
def statement (obligation : Obligation) : Build Bit :=
  obligation.precondition.implies obligation.conclusion

/-- The precondition is known never to hold. -/
def isVacuous (obligation : Obligation) : Bool :=
  obligation.precondition.known == some false

/-- The three addresses are pairwise different. -/
def distinctAddresses (inputs : Inputs) : Checked Bit := do
  let factorsDiffer ← inputs.factor1Address.differs inputs.factor2Address
  let firstDiffers ← inputs.factor1Address.differs inputs.lowAddress
  let both ← factorsDiffer.and firstDiffers
  let secondDiffers ← inputs.factor2Address.differs inputs.lowAddress
  both.and secondDiffers

/-- The two result words, taken as one number of twice the width, are the product of
the factors. -/
def isProduct (inputs : Inputs) (high low : Word) : Checked Bit := do
  let product ← (inputs.factor1.zeroExtend wordBits).mul (inputs.factor2.zeroExtend wordBits)
  let result ← ((high.zeroExtend wordBits).shiftLeft wordBits).add (low.zeroExtend wordBits)
  result.equals product

/-- What has to hold of the result words for given inputs. -/
def ofResult (inputs : Inputs) (high low : Word) : Checked Obligation := do
  let precondition ← distinctAddresses inputs
  let conclusion ← isProduct inputs high low
  return { precondition, conclusion }

end Obligation
end SymbolicMachine
