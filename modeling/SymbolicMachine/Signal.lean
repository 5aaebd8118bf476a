import SymbolicMachine.Evaluation

namespace SymbolicMachine

/-!
# Signals

Inputs and outputs of a circuit are bits or words.  A signal is either, and a bit
counts as the word of width one wherever a number is meant.
-/

/-- A bit or a word. -/
inductive Signal where
  | bit (bit : Bit)
  | word (word : Word)
  deriving DecidableEq, Repr

namespace Signal

/-- The bits of a signal as a word. -/
def toWord : Signal -> Word
  | .bit value => .ofBit value
  | .word value => value

/-- Additionally make the variables of a signal take a value.  Bits that are not
plain variables are passed over. -/
def assign (signal : Signal) (value : Nat) (assignment : Assignment) : Assignment :=
  assignment.extend (.ofValue signal.toWord value)

end Signal

namespace Evaluator

/-- The number that a signal denotes, if each of its bits has a value. -/
def signal : Signal -> StateM Evaluator (Option Nat)
  | .bit value => do return (← bit value).map Bool.toNat
  | .word value => word value

end Evaluator
end SymbolicMachine
