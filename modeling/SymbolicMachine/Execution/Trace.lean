namespace SymbolicMachine

/-!
# Traces

A trace counts what a run did: how often each instruction was executed, how many
instructions were executed in all, how often paths forked and how often they
merged.  The counts per instruction are listed up to the last instruction that
was executed at all, so equal counts are equal lists.
-/

/-- What a run did so far. -/
structure Trace where
  /-- How often each instruction was executed, by its number. -/
  visits : List Nat := []
  /-- How many instructions were executed. -/
  steps : Nat := 0
  /-- How many branches could not be decided. -/
  forks : Nat := 0
  /-- How often two threads became one. -/
  merges : Nat := 0
  deriving DecidableEq, Repr

namespace Trace

/-- How often an instruction was executed. -/
def count (trace : Trace) (pc : Nat) : Nat :=
  trace.visits.getD pc 0

/-- Count one more visit of an instruction. -/
def countVisit : (pc : Nat) -> List Nat -> List Nat
  | 0, [] => [1]
  | 0, visits :: rest => (visits + 1) :: rest
  | pc + 1, [] => 0 :: countVisit pc []
  | pc + 1, visits :: rest => visits :: countVisit pc rest

/-- One more visit makes one count larger by one and leaves all others. -/
theorem getD_countVisit (pc other : Nat) (visits : List Nat) :
    (countVisit pc visits).getD other 0 =
      visits.getD other 0 + if other = pc then 1 else 0 := by
  induction pc generalizing visits other with
  | zero => cases visits <;> cases other <;> simp [countVisit]
  | succ pc ih =>
      cases visits with
      | nil =>
          cases other with
          | zero => simp [countVisit]
          | succ other => simpa [countVisit] using ih other []
      | cons head rest =>
          cases other with
          | zero => simp [countVisit]
          | succ other => simpa [countVisit] using ih other rest

/-- An instruction was executed. -/
def visit (trace : Trace) (pc : Nat) : Trace :=
  { trace with visits := countVisit pc trace.visits, steps := trace.steps + 1 }

@[simp, grind =] theorem count_visit (trace : Trace) (pc other : Nat) :
    (trace.visit pc).count other = trace.count other + if other = pc then 1 else 0 :=
  getD_countVisit pc other trace.visits

@[simp, grind =] theorem steps_visit (trace : Trace) (pc : Nat) :
    (trace.visit pc).steps = trace.steps + 1 :=
  rfl

@[simp, grind =] theorem forks_visit (trace : Trace) (pc : Nat) :
    (trace.visit pc).forks = trace.forks :=
  rfl

@[simp, grind =] theorem merges_visit (trace : Trace) (pc : Nat) :
    (trace.visit pc).merges = trace.merges :=
  rfl

/-- A path forked. -/
def fork (trace : Trace) : Trace :=
  { trace with forks := trace.forks + 1 }

@[simp, grind =] theorem count_fork (trace : Trace) (pc : Nat) : trace.fork.count pc = trace.count pc :=
  rfl

@[simp, grind =] theorem steps_fork (trace : Trace) : trace.fork.steps = trace.steps :=
  rfl

@[simp, grind =] theorem forks_fork (trace : Trace) : trace.fork.forks = trace.forks + 1 :=
  rfl

@[simp, grind =] theorem merges_fork (trace : Trace) : trace.fork.merges = trace.merges :=
  rfl

/-- Two threads became one. -/
def merge (trace : Trace) : Trace :=
  { trace with merges := trace.merges + 1 }

@[simp, grind =] theorem count_merge (trace : Trace) (pc : Nat) : trace.merge.count pc = trace.count pc :=
  rfl

@[simp, grind =] theorem steps_merge (trace : Trace) : trace.merge.steps = trace.steps :=
  rfl

@[simp, grind =] theorem forks_merge (trace : Trace) : trace.merge.forks = trace.forks :=
  rfl

@[simp, grind =] theorem merges_merge (trace : Trace) : trace.merge.merges = trace.merges + 1 :=
  rfl

end Trace
end SymbolicMachine
