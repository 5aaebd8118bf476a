import SymbolicMachine.Session

namespace SymbolicMachine

/-!
# Symbolic bits

A symbolic bit is an and-inverter circuit over named variables.  A gate reads
its operands through wires.  Each wire carries a name, and naming makes sharing
visible: two gates that read the same wire are known to read the same value,
while two separately built copies of one circuit are not recognised as equal.

Recognition is the relation `Bit.identical`.  It inspects the outermost gate
only: wires are compared as wires, and variables by identifier.  It is therefore
cheap, it implies that both bits always have the same value, and it says nothing
about circuits that merely happen to agree.

Equality of bits compares names before contents and takes equal objects as
equal without descending, so that comparing shared circuits takes no longer
than comparing their outermost gates.
-/

/-- An and-inverter circuit with named wires. -/
inductive Bit where
  /-- A known value. -/
  | literal (value : Bool)
  /-- An input, equal to every other input of the same identifier. -/
  | var (id : Nat)
  /-- The negation of what arrives on a wire. -/
  | notGate (wire : Nat) (input : Bit)
  /-- The conjunction of what arrives on two wires. -/
  | andGate (leftWire : Nat) (left : Bit) (rightWire : Nat) (right : Bit)
  deriving Repr, Inhabited

namespace Bit

/-- Decide equality of circuits, names included. -/
def decideEq (first second : Bit) : Decidable (first = second) :=
  withPtrEqDecEq first second fun _ =>
    match first, second with
    | literal x, literal y =>
        if same : x = y then isTrue (by rw [same]) else isFalse (by simp [same])
    | var i, var j =>
        if same : i = j then isTrue (by rw [same]) else isFalse (by simp [same])
    | notGate w x, notGate u y =>
        if sameWire : w = u then
          match decideEq x y with
          | isTrue sameInput => isTrue (by rw [sameWire, sameInput])
          | isFalse different => isFalse (by simp [different])
        else isFalse (by simp [sameWire])
    | andGate w x w' x', andGate u y u' y' =>
        if sameWires : w = u ∧ w' = u' then
          match decideEq x y with
          | isTrue sameLeft =>
              match decideEq x' y' with
              | isTrue sameRight =>
                  isTrue (by rw [sameWires.1, sameWires.2, sameLeft, sameRight])
              | isFalse different => isFalse (by simp [different])
          | isFalse different => isFalse (by simp [different])
        else isFalse (by intro same; cases same; simp at sameWires)
    | literal _, var _ | literal _, notGate .. | literal _, andGate ..
    | var _, literal _ | var _, notGate .. | var _, andGate ..
    | notGate .., literal _ | notGate .., var _ | notGate .., andGate ..
    | andGate .., literal _ | andGate .., var _ | andGate .., notGate .. =>
        isFalse (by simp)

instance : DecidableEq Bit := decideEq

/-- The bit that is always false. -/
def zero : Bit := literal false

/-- The bit that is always true. -/
def one : Bit := literal true

/-- The value of a bit that is a literal. -/
def known : Bit -> Option Bool
  | literal value => some value
  | _ => none

/-- The identifier of a bit that is a plain variable. -/
def variableId : Bit -> Option Nat
  | var id => some id
  | _ => none

end Bit

/-- The end of a wire: its name together with the circuit that drives it. -/
structure Wire where
  name : Nat
  source : Bit
  deriving DecidableEq, Repr

instance : Hashable Wire where
  hash wire := hash wire.name

namespace Bit

/-- Both bits are variables, and the same one. -/
def sameVariable : Bit -> Bit -> Bool
  | var i, var j => i == j
  | _, _ => false

/-- Both bits are recognisably one circuit: equal literals, equal variables, or
gates of one kind that read the same wires.  Gates whose operands are all plain
variables are compared by these variables.  The operands of a conjunction may
stand in either order. -/
def identical : Bit -> Bit -> Bool
  | literal x, literal y => x == y
  | var i, var j => i == j
  | notGate w x, notGate u y =>
      decide (Wire.mk w x = Wire.mk u y) || sameVariable x y
  | andGate w x w' x', andGate u y u' y' =>
      (decide (Wire.mk w x = Wire.mk u y) && decide (Wire.mk w' x' = Wire.mk u' y')) ||
      (decide (Wire.mk w x = Wire.mk u' y') && decide (Wire.mk w' x' = Wire.mk u y)) ||
      (sameVariable x y && sameVariable x' y') ||
      (sameVariable x y' && sameVariable x' y)
  | _, _ => false

/-- Both bits are the same circuit when names are disregarded.  Equal wires are
not descended into. -/
def sameShape : Bit -> Bit -> Bool
  | literal x, literal y => x == y
  | var i, var j => i == j
  | notGate w x, notGate u y =>
      decide (Wire.mk w x = Wire.mk u y) || sameShape x y
  | andGate w x w' x', andGate u y u' y' =>
      (decide (Wire.mk w x = Wire.mk u y) || sameShape x y) &&
      (decide (Wire.mk w' x' = Wire.mk u' y') || sameShape x' y')
  | _, _ => false

/-- One bit is visibly the negation of the other. -/
def negates : Bit -> Bit -> Bool
  | notGate _ input, bit => input.identical bit
  | _, _ => false

end Bit
end SymbolicMachine
