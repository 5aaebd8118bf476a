import SymbolicMachine.Machine.Basic

namespace SymbolicMachine

/-!
# Threads

A run follows all paths through a program at once.  A thread stands for the paths
that have come to one instruction: the machine there, and the predicate on the
inputs under which one of these paths is the one that is taken.
-/

/-- A machine, and the condition under which a run has come to it. -/
structure Thread where
  predicate : Bit
  machine : Machine
  deriving Repr

namespace Thread

/-- The thread that stands for the paths of both threads.  Where the first
predicate holds it is the first machine, and elsewhere the second. -/
def join (first second : Thread) : Checked Thread := do
  let machine ← Machine.merge first.predicate first.machine second.machine
  let predicate ← first.predicate.or second.predicate
  return { predicate, machine }

end Thread
end SymbolicMachine
