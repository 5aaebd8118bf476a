import SymbolicMachine.Memory.Basic

namespace SymbolicMachine

/-!
# The machine

A machine is a memory, two word registers and two flags, all of them symbolic.
Registers hold words of `wordBits` bits, memory is addressed by `addressBits`
bits and is given words of `wordBits` bits.  Setting a part checks its width, so
a machine that starts with words of the right widths keeps them.
-/

/-- The parts of the machine at one point of a run. -/
structure Machine where
  memory : Memory
  x : Word
  a : Word
  carry : Bit
  zero : Bit
  deriving Repr

namespace Machine

/-! ## Width checks -/

def requireRegister (register : Register) (value : Word) : Checked Unit :=
  require (value.width == wordBits) (.registerWidth register value.width)

def requireAddress (address : Word) : Checked Unit :=
  require (address.width == addressBits) (.addressWidth address.width)

def requireWord (value : Word) : Checked Unit :=
  require (value.width == wordBits) (.valueWidth value.width)

/-! ## Parts -/

/-- The machine with the given parts. -/
def ofParts (memory : Memory) (x a : Word) (carry zero : Bit) : Checked Machine := do
  requireRegister .x x
  requireRegister .a a
  return { memory, x, a, carry, zero }

/-- The machine whose memory holds one word everywhere, with registers and flags
cleared. -/
def cleared (strategy : Strategy) (fill : Word) : Checked Machine := do
  requireWord fill
  let memory ← Memory.reset strategy fill
  return { memory, x := .zero wordBits, a := .zero wordBits, carry := .zero, zero := .zero }

def register (machine : Machine) : Register -> Word
  | .x => machine.x
  | .a => machine.a

def flag (machine : Machine) : Flag -> Bit
  | .carry => machine.carry
  | .zero => machine.zero

def withRegister (machine : Machine) (register : Register) (value : Word) :
    Checked Machine := do
  requireRegister register value
  match register with
  | .x => return { machine with x := value }
  | .a => return { machine with a := value }

def withFlag (machine : Machine) : Flag -> Bit -> Machine
  | .carry, value => { machine with carry := value }
  | .zero, value => { machine with zero := value }

/-- The word at an address. -/
def read (machine : Machine) (address : Word) : Checked Word := do
  requireAddress address
  machine.memory.read address

/-- The machine after a write. -/
def write (machine : Machine) (address value : Word) : Checked Machine := do
  requireAddress address
  requireWord value
  return { machine with memory := ← machine.memory.write address value }

/-- The machine whose memory holds one word everywhere. -/
def fillMemory (machine : Machine) (value : Word) : Checked Machine := do
  requireWord value
  return { machine with memory := ← Memory.reset machine.memory.strategy value }

/-- The machine that is one machine where a condition holds and the other where
it does not, part by part.  A known condition leaves no choice. -/
def merge (condition : Bit) (whenTrue whenFalse : Machine) : Checked Machine :=
  match condition.known with
  | some true => pure whenTrue
  | some false => pure whenFalse
  | none => do
      let memory ← Memory.merge condition whenTrue.memory whenFalse.memory
      let x ← Word.select condition whenTrue.x whenFalse.x
      let a ← Word.select condition whenTrue.a whenFalse.a
      let carry ← condition.select whenTrue.carry whenFalse.carry
      let zero ← condition.select whenTrue.zero whenFalse.zero
      return { memory, x, a, carry, zero }

end Machine
end SymbolicMachine
