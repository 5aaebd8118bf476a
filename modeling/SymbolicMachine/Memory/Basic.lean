import SymbolicMachine.Memory.ArrayTerm
import SymbolicMachine.Memory.Dense

namespace SymbolicMachine

/-!
# Memory

A memory maps addresses to words.  It is kept in the shape chosen when it was
reset, and every operation keeps that shape.  Widths are not fixed here: an
operation is misused only where it has to compare or choose between words of
different widths, or to merge memories of different shapes.
-/

/-- A map from symbolic addresses to symbolic words. -/
inductive Memory where
  | dense (memory : DenseMemory)
  | array (term : ArrayTerm)
  deriving Repr

namespace Memory

/-- The shape in which a memory is kept. -/
def strategy : Memory -> Strategy
  | dense _ => .dense
  | array _ => .array

/-- The memory that holds one word everywhere. -/
def reset (strategy : Strategy) (default : Word) : Build Memory :=
  match strategy with
  | .dense => pure (dense (.reset default))
  | .array => do return array (← ArrayTerm.reset default)

/-- The word at an address. -/
def read (memory : Memory) (address : Word) : Checked Word :=
  match memory with
  | dense memory => memory.read address
  | array term => term.read address

/-- The memory after a write. -/
def write (memory : Memory) (address value : Word) : Build Memory :=
  match memory with
  | dense memory => pure (dense (memory.write address value))
  | array term => do return array (← term.write address value)

/-- The memory that reads as one memory where a condition holds and as the other
where it does not. -/
def merge (condition : Bit) : Memory -> Memory -> Checked Memory
  | dense whenTrue, dense whenFalse => do
      return dense (← DenseMemory.merge condition whenTrue whenFalse)
  | array whenTrue, array whenFalse => do
      return array (← ArrayTerm.merge condition whenTrue whenFalse)
  | whenTrue, whenFalse =>
      throw (.differentStrategies whenTrue.strategy whenFalse.strategy)

end Memory
end SymbolicMachine
