namespace SymbolicMachine

/-!
# Registers and flags

The machine has an index register, an accumulator, a carry flag and a zero
flag.  Words are eight bits wide and addresses thirty-two.
-/

/-- Width of a machine word in bits. -/
def wordBits : Nat := 8

/-- Width of a memory address in bits. -/
def addressBits : Nat := 32

/-- A word register. -/
inductive Register where
  /-- The index register. -/
  | x
  /-- The accumulator. -/
  | a
  deriving DecidableEq, Repr

namespace Register

/-- The letter by which a register is shown. -/
def name : Register -> String
  | x => "X"
  | a => "A"

end Register

/-- A one-bit register set by arithmetic. -/
inductive Flag where
  /-- Carry out of an addition, or the bit that a rotation pushed out. -/
  | carry
  /-- Whether the last result was zero. -/
  | zero
  deriving DecidableEq, Repr

namespace Flag

/-- The letter by which a flag is shown. -/
def name : Flag -> String
  | carry => "C"
  | zero => "Z"

end Flag
end SymbolicMachine
