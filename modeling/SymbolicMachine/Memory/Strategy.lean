namespace SymbolicMachine

/-!
# Memory strategies

Memory can be kept in two shapes: as a list of overridden cells whose reads are
resolved at once, or as an array term that records every write and merge.  The
choice affects the circuits that reads build, not the values they denote.
-/

/-- The shape in which a memory is kept. -/
inductive Strategy where
  /-- Cells over a default, resolved eagerly. -/
  | dense
  /-- A recorded array term, resolved when it is read. -/
  | array
  deriving DecidableEq, Repr

namespace Strategy

/-- The name under which a strategy is selected and reported. -/
def name : Strategy -> String
  | dense => "dense"
  | array => "array"

/-- The strategy of a given name, if it is one. -/
def ofName? (text : String) : Option Strategy :=
  [dense, array].find? fun strategy => strategy.name == text

@[simp] theorem ofName?_name (strategy : Strategy) :
    ofName? strategy.name = some strategy := by
  cases strategy <;> rfl

end Strategy
end SymbolicMachine
