import SymbolicMachine.Word.Arithmetic

namespace SymbolicMachine

/-!
# Dense memory

A dense memory is a default word overridden by cells.  Reading resolves at once:
it walks from the newest cell to the oldest until it meets a cell whose address
is recognisably the wanted one, and wraps the value found there into one choice
for every newer cell that might still be the wanted one.

No two cells have recognisably the same address.  Addresses that merely happen to
agree for some inputs may well stand side by side.
-/

/-- One overridden address. -/
structure Cell where
  address : Word
  value : Word
  deriving DecidableEq, Repr

/-- A default overridden by cells. -/
structure DenseMemory where
  default : Word
  /-- Cells from the newest write to the oldest. -/
  cells : List Cell
  deriving DecidableEq, Repr

namespace DenseMemory

/-- The memory that holds one word everywhere. -/
def reset (default : Word) : DenseMemory where
  default := default
  cells := []

/-- The written addresses, from the oldest write to the newest. -/
def touched (memory : DenseMemory) : List Word :=
  memory.cells.reverse.map Cell.address

/-- Read through cells that stand from newest to oldest over a default. -/
def readCells (default address : Word) : List Cell -> Checked Word
  | [] => pure default
  | cell :: older =>
      if cell.address.identical address then pure cell.value
      else do
        let shadowed ← readCells default address older
        let hit ← address.equals cell.address
        Word.select hit cell.value shadowed

/-- The word at an address. -/
def read (memory : DenseMemory) (address : Word) : Checked Word :=
  readCells memory.default address memory.cells

/-- The memory after a write.  A cell of recognisably the same address is
superseded. -/
def write (memory : DenseMemory) (address value : Word) : DenseMemory where
  default := memory.default
  cells := ⟨address, value⟩ ::
    memory.cells.filter fun cell => !cell.address.identical address

/-- Add an address, unless it is recognisably among those gathered so far. -/
def gather (gathered : List Word) (address : Word) : List Word :=
  if gathered.any fun known => known.identical address then gathered else gathered ++ [address]

/-- The addresses written in either memory, those of the first one first. -/
def jointAddresses (whenTrue whenFalse : DenseMemory) : List Word :=
  whenFalse.touched.foldl gather whenTrue.touched

/-- The memory that reads as one memory where a condition holds and as the other
where it does not.  Each cell holds the choice between both reads of its address,
so the order of the cells does not matter. -/
def merge (condition : Bit) (whenTrue whenFalse : DenseMemory) : Checked DenseMemory := do
  let cells ← (jointAddresses whenTrue whenFalse).mapM fun address => do
    let value ← Word.select condition (← whenTrue.read address) (← whenFalse.read address)
    return { address, value : Cell }
  let default ← Word.select condition whenTrue.default whenFalse.default
  return { default, cells := cells.reverse }

end DenseMemory
end SymbolicMachine
