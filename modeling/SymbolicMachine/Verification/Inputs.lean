import SymbolicMachine.Machine.Component
import SymbolicMachine.Signal

namespace SymbolicMachine

/-!
# Inputs of a verification

The multiplier runs from a machine that is given in full: the addresses and values
of both factors, the address for the low word of the product, what the rest of the
memory holds, and the registers and flags.  Each of these inputs has a name.
-/

/-- The name of an input. -/
inductive InputName where
  | memoryBase
  | factor1Address
  | factor1
  | factor2Address
  | factor2
  | lowAddress
  | x
  | a
  | memoryFill
  | carry
  | zero
  deriving DecidableEq, Repr

namespace InputName

/-- All names, in the order in which inputs are listed. -/
def all : List InputName :=
  [memoryBase, factor1Address, factor1, factor2Address, factor2, lowAddress, x, a,
   memoryFill, carry, zero]

/-- A name as it is written. -/
def text : InputName -> String
  | memoryBase => "memory_base"
  | factor1Address => "factor1_address"
  | factor1 => "factor1"
  | factor2Address => "factor2_address"
  | factor2 => "factor2"
  | lowAddress => "low_address"
  | x => "x"
  | a => "a"
  | memoryFill => "memory_fill"
  | carry => "carry"
  | zero => "zero"

/-- The name that is written so, if there is one. -/
def ofText? (text : String) : Option InputName :=
  all.find? fun name => name.text == text

/-- Every name is listed. -/
theorem mem_all (name : InputName) : name ∈ all := by
  cases name <;> simp [all]

end InputName

/-- The machine from which the multiplier runs. -/
structure Inputs where
  /-- What the memory held before it was filled. -/
  memoryBase : Word
  factor1Address : Word
  factor1 : Word
  factor2Address : Word
  factor2 : Word
  /-- Where the low word of the product goes. -/
  lowAddress : Word
  x : Word
  a : Word
  /-- What the memory holds apart from the factors. -/
  memoryFill : Word
  carry : Bit
  zero : Bit
  deriving DecidableEq, Repr

namespace Inputs

/-- The input of a name. -/
def get (inputs : Inputs) : InputName -> Signal
  | .memoryBase => .word inputs.memoryBase
  | .factor1Address => .word inputs.factor1Address
  | .factor1 => .word inputs.factor1
  | .factor2Address => .word inputs.factor2Address
  | .factor2 => .word inputs.factor2
  | .lowAddress => .word inputs.lowAddress
  | .x => .word inputs.x
  | .a => .word inputs.a
  | .memoryFill => .word inputs.memoryFill
  | .carry => .bit inputs.carry
  | .zero => .bit inputs.zero

/-- Replace the input of a name.  Words replace words and bits replace bits. -/
def set? (inputs : Inputs) : InputName -> Signal -> Option Inputs
  | .memoryBase, .word word => some { inputs with memoryBase := word }
  | .factor1Address, .word word => some { inputs with factor1Address := word }
  | .factor1, .word word => some { inputs with factor1 := word }
  | .factor2Address, .word word => some { inputs with factor2Address := word }
  | .factor2, .word word => some { inputs with factor2 := word }
  | .lowAddress, .word word => some { inputs with lowAddress := word }
  | .x, .word word => some { inputs with x := word }
  | .a, .word word => some { inputs with a := word }
  | .memoryFill, .word word => some { inputs with memoryFill := word }
  | .carry, .bit bit => some { inputs with carry := bit }
  | .zero, .bit bit => some { inputs with zero := bit }
  | _, _ => none

/-- All inputs with their names, in order. -/
def named (inputs : Inputs) : List (InputName × Signal) :=
  InputName.all.map fun name => (name, inputs.get name)

/-- A fresh variable. -/
def freshBit : Build Bit := do
  return .var (← freshVariables 1)

/-- Inputs about which nothing is known: each bit is a variable of its own. -/
def symbolic : Build Inputs := do
  let memoryBase ← Word.fresh wordBits
  let factor1Address ← Word.fresh addressBits
  let factor1 ← Word.fresh wordBits
  let factor2Address ← Word.fresh addressBits
  let factor2 ← Word.fresh wordBits
  let lowAddress ← Word.fresh addressBits
  let x ← Word.fresh wordBits
  let a ← Word.fresh wordBits
  let memoryFill ← Word.fresh wordBits
  let carry ← freshBit
  let zero ← freshBit
  return { memoryBase, factor1Address, factor1, factor2Address, factor2, lowAddress,
           x, a, memoryFill, carry, zero }

/-- Make the variables of named inputs take values.  Inputs without a value are
left alone. -/
def assignment (inputs : Inputs) (value? : InputName -> Option Nat) : Assignment :=
  inputs.named.foldl
    (fun assignment (name, signal) =>
      match value? name with
      | some value => signal.assign value assignment
      | none => assignment)
    .empty

end Inputs
end SymbolicMachine
