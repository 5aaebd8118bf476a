import SymbolicMachine.Word.Arithmetic
import Std.Data.HashMap

namespace SymbolicMachine

/-!
# Array memory

An array memory records what was done to it: a constant array, a store into an
older array, or a choice between two arrays.  Only reading builds circuits.  It
descends through the record and resolves each node once, so that a part that two
branches share is read by one circuit.

Nodes are named, as wires are, and a merge of one node with itself is that node.
-/

/-- A recorded array. -/
inductive ArrayTerm where
  /-- One word everywhere. -/
  | constant (name : Nat) (value : Word)
  /-- An older array with one address overridden. -/
  | store (name : Nat) (older : ArrayTerm) (address value : Word)
  /-- One of two arrays, by a condition. -/
  | choice (name : Nat) (condition : Bit) (whenTrue whenFalse : ArrayTerm)
  deriving Repr

namespace ArrayTerm

/-- Decide equality of recorded arrays, names included.  Names are compared first
and equal objects are not descended into. -/
def decideEq (first second : ArrayTerm) : Decidable (first = second) :=
  withPtrEqDecEq first second fun _ =>
    match first, second with
    | constant n v, constant m w =>
        if same : n = m ∧ v = w then isTrue (by rw [same.1, same.2])
        else isFalse (by simpa using same)
    | store n older address value, store m older' address' value' =>
        if same : n = m ∧ address = address' ∧ value = value' then
          match decideEq older older' with
          | isTrue sameOlder => isTrue (by rw [same.1, same.2.1, same.2.2, sameOlder])
          | isFalse different => isFalse (by simp [different])
        else isFalse (by intro equal; cases equal; simp at same)
    | choice n condition left right, choice m condition' left' right' =>
        if same : n = m ∧ condition = condition' then
          match decideEq left left' with
          | isTrue sameLeft =>
              match decideEq right right' with
              | isTrue sameRight =>
                  isTrue (by rw [same.1, same.2, sameLeft, sameRight])
              | isFalse different => isFalse (by simp [different])
          | isFalse different => isFalse (by simp [different])
        else isFalse (by intro equal; cases equal; simp at same)
    | constant .., store .. | constant .., choice ..
    | store .., constant .. | store .., choice ..
    | choice .., constant .. | choice .., store .. => isFalse (by simp)

instance : DecidableEq ArrayTerm := decideEq

/-- The name of the outermost node. -/
def name : ArrayTerm -> Nat
  | constant name .. | store name .. | choice name .. => name

instance : Hashable ArrayTerm where
  hash term := hash term.name

/-- The array that holds one word everywhere. -/
def reset (default : Word) : Build ArrayTerm := do
  return constant (← freshName) default

/-- Record a write. -/
def write (term : ArrayTerm) (address value : Word) : Build ArrayTerm := do
  return store (← freshName) term address value

/-- Record a choice, unless both arrays are one node or the condition is known. -/
def merge (condition : Bit) (whenTrue whenFalse : ArrayTerm) : Build ArrayTerm :=
  if whenTrue = whenFalse then pure whenTrue
  else match condition.known with
    | some true => pure whenTrue
    | some false => pure whenFalse
    | none => do return choice (← freshName) condition whenTrue whenFalse

/-- Constructions that remember the word read from each node. -/
abbrev Reading := StateT (Std.HashMap ArrayTerm Word) Checked

/-- Use the word already read from a node, or read and remember it. -/
@[specialize]
def remember (term : ArrayTerm) (resolve : Reading Word) : Reading Word := do
  match (← get)[term]? with
  | some value => return value
  | none =>
      let value ← resolve
      modify fun found => found.insert term value
      return value

/-- Read an address.  A store to recognisably the same address answers at once,
any other one adds a choice to what is read from the older array. -/
def resolve (address : Word) : ArrayTerm -> Reading Word
  | term@(constant _ value) => remember term (pure value)
  | term@(store _ older index value) => remember term do
      if index.identical address then return value
      else
        let shadowed ← resolve address older
        let hit ← address.equals index
        Word.select hit value shadowed
  | term@(choice _ condition whenTrue whenFalse) => remember term do
      let left ← resolve address whenTrue
      let right ← resolve address whenFalse
      Word.select condition left right

/-- The word at an address. -/
def read (term : ArrayTerm) (address : Word) : Checked Word := do
  return (← (resolve address term).run ∅).1

end ArrayTerm
end SymbolicMachine
