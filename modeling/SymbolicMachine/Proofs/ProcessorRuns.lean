import SymbolicMachine.Proofs.Processor
import SymbolicMachine.Traversal

namespace SymbolicMachine

/-!
# Determinacy of processors

A processor has no choice.  Of two stretches that it covers from one point of a program, the
shorter is the beginning of the longer, and a point where it cannot go on is where every
longer stretch would have to end.  In particular there is at most one complete run, and a
processor that is still running after some instructions has neither halted nor left the
program before.

Where an instruction can lead is read off the instruction, whatever the processor holds: inside
the program or right behind it, and behind it only from the last instruction.

Nor does a processor see the words that name addresses, only where they are located.
Programs whose instructions are alike in this respect have the same runs.
-/

/-- The way from one point of a program to another, with the numbers of the instructions
executed in between. -/
inductive Reaches (program : Program) (locate : Word -> UInt32) :
    Control -> Processor -> List Nat -> Control -> Processor -> Prop
  | here (control : Control) (processor : Processor) :
      Reaches program locate control processor [] control processor
  | step {pc : Nat} {instruction : Instruction} {processor last : Processor} {control : Control}
      {visited : List Nat} :
      program.get? pc = some instruction ->
      Reaches program locate (processor.after instruction pc) (processor.act locate instruction)
        visited control last ->
      Reaches program locate (.running pc) processor (pc :: visited) control last

/-- Nothing can be executed at a point of a program: the processor has halted there, or has
left the program. -/
def Control.Stuck (program : Program) (control : Control) : Prop :=
  ∀ pc, control = .running pc -> program.get? pc = none

variable {program : Program} {locate : Word -> UInt32} {control last other : Control}
  {processor final ending : Processor} {visited longer : List Nat}

theorem Control.stuck_halted (program : Program) : Control.halted.Stuck program := by
  intro pc impossible
  cases impossible

theorem Control.stuck_end (program : Program) :
    (Control.running program.length).Stuck program := by
  rintro pc ⟨⟩
  exact List.getElem?_eq_none (Nat.le_refl _)

/-- The places to which an instruction leads. -/
def Instruction.leadsTo (pc : Nat) : Instruction -> List Control
  | branchIfClear _ target => [.running target, .running (pc + 1)]
  | halt => [.halted]
  | _ => [.running (pc + 1)]

theorem Processor.after_mem_leadsTo (processor : Processor) (instruction : Instruction) (pc : Nat) :
    processor.after instruction pc ∈ instruction.leadsTo pc := by
  cases instruction with
  | branchIfClear flag target =>
      rw [Processor.after]
      split <;> simp [Instruction.leadsTo]
  | _ => exact List.mem_singleton.mpr rfl

/-- An instruction leads inside the program or right behind it. -/
theorem Program.leadsTo_le {pc next : Nat} {instruction : Instruction}
    (found : program.get? pc = some instruction)
    (leads : .running next ∈ instruction.leadsTo pc) : next ≤ program.length := by
  have bound : pc + 1 ≤ program.length := (List.getElem?_eq_some_iff.mp found).1
  have inside := program.branches_inside _ (List.mem_of_getElem? found)
  cases instruction with
  | branchIfClear flag target =>
      have targetInside : target < program.length := inside target rfl
      simp only [Instruction.leadsTo, List.mem_cons, Control.running.injEq, List.not_mem_nil,
        or_false] at leads
      omega
  | halt => simp [Instruction.leadsTo] at leads
  | _ =>
      simp only [Instruction.leadsTo, List.mem_singleton, Control.running.injEq] at leads
      omega

/-- Only the last instruction leads behind the program, and it does so without a branch that
is taken. -/
theorem Program.leadsTo_end {pc : Nat} {instruction : Instruction}
    (found : program.get? pc = some instruction)
    (leads : .running program.length ∈ instruction.leadsTo pc) :
    pc + 1 = program.length ∧ instruction ≠ .halt ∧
      instruction.target? ≠ some program.length := by
  have inside := program.branches_inside _ (List.mem_of_getElem? found)
  have notTaken : instruction.target? ≠ some program.length := by
    intro branches
    exact Nat.lt_irrefl _ (inside _ branches)
  cases instruction with
  | branchIfClear flag target =>
      have different : program.length ≠ target := by
        rintro rfl
        exact notTaken rfl
      simp only [Instruction.leadsTo, List.mem_cons, Control.running.injEq, List.not_mem_nil,
        or_false, different, false_or] at leads
      exact ⟨leads.symm, Instruction.noConfusion, notTaken⟩
  | halt => simp [Instruction.leadsTo] at leads
  | _ =>
      simp only [Instruction.leadsTo, List.mem_singleton, Control.running.injEq] at leads
      exact ⟨leads.symm, Instruction.noConfusion, notTaken⟩

/-- After an instruction a processor goes on inside the program or right behind it. -/
theorem Program.next_le_length (program : Program) {pc next : Nat} {instruction : Instruction}
    (found : program.get? pc = some instruction)
    (goes : processor.after instruction pc = .running next) : next ≤ program.length := by
  apply leadsTo_le found
  rw [← goes]
  exact processor.after_mem_leadsTo instruction pc

namespace Reaches

/-- One more instruction at the end. -/
theorem advance {pc : Nat} {instruction : Instruction}
    (reaches : Reaches program locate control processor visited (.running pc) final)
    (found : program.get? pc = some instruction) :
    Reaches program locate control processor (visited ++ [pc]) (final.after instruction pc)
      (final.act locate instruction) := by
  generalize destination : Control.running pc = point at reaches
  induction reaches with
  | here control processor =>
      subst destination
      exact .step found (.here _ _)
  | step foundFirst rest ih => exact .step foundFirst (ih destination)

/-- The shorter of two ways from one point is the beginning of the longer. -/
theorem prolongs (first : Reaches program locate control processor visited last final)
    (second : Reaches program locate control processor longer other ending)
    (shorter : visited.length ≤ longer.length) :
    ∃ rest, longer = visited ++ rest ∧ Reaches program locate last final rest other ending := by
  induction first generalizing longer with
  | here control processor => exact ⟨longer, rfl, second⟩
  | step found tail ih =>
      cases second with
      | here => cases shorter
      | step foundAgain secondTail =>
          rw [found] at foundAgain
          cases foundAgain
          rcases ih secondTail (Nat.le_of_succ_le_succ shorter) with ⟨rest, same, reaches⟩
          exact ⟨rest, congrArg _ same, reaches⟩

/-- A processor that cannot go on stays where it is. -/
theorem eq_of_stuck (reaches : Reaches program locate control processor visited last final)
    (stuck : control.Stuck program) : visited = [] ∧ last = control ∧ final = processor := by
  cases reaches with
  | here => exact ⟨rfl, rfl, rfl⟩
  | @step pc instruction _ _ _ _ found tail =>
      rw [stuck pc rfl] at found
      cases found

/-- No way from a point is longer than one on which the processor gets stuck. -/
theorem eq_of_reaches_stuck (first : Reaches program locate control processor visited last final)
    (stuck : last.Stuck program)
    (second : Reaches program locate control processor longer other ending)
    (shorter : visited.length ≤ longer.length) :
    longer = visited ∧ other = last ∧ ending = final := by
  rcases first.prolongs second shorter with ⟨rest, same, remaining⟩
  rcases remaining.eq_of_stuck stuck with ⟨nothing, samePoint, sameProcessor⟩
  rw [nothing, List.append_nil] at same
  exact ⟨same, samePoint, sameProcessor⟩

/-- A processor gets stuck in one way at most. -/
theorem unique_of_stuck (first : Reaches program locate control processor visited last final)
    (firstStuck : last.Stuck program)
    (second : Reaches program locate control processor longer other ending)
    (secondStuck : other.Stuck program) :
    longer = visited ∧ other = last ∧ ending = final := by
  rcases Nat.le_total visited.length longer.length with shorter | shorter
  · exact first.eq_of_reaches_stuck firstStuck second shorter
  · rcases second.eq_of_reaches_stuck secondStuck first shorter with
      ⟨sameVisited, samePoint, sameProcessor⟩
    exact ⟨sameVisited.symm, samePoint.symm, sameProcessor.symm⟩

/-- A processor that leaves a program does so at its end. -/
theorem pc_le_length {first pc : Nat} (inside : first ≤ program.length)
    (reaches : Reaches program locate (.running first) processor visited (.running pc) final) :
    pc ≤ program.length := by
  generalize source : Control.running first = start at reaches
  generalize destination : Control.running pc = point at reaches
  induction reaches generalizing first with
  | here control processor =>
      subst source
      cases destination
      exact inside
  | @step current instruction processor _ _ _ found rest ih =>
      cases goes : processor.after instruction current with
      | running next => exact ih (program.next_le_length found goes) goes.symm destination
      | halted =>
          rw [goes] at rest
          have elsewhere := (rest.eq_of_stuck (Control.stuck_halted program)).2.1
          rw [← destination] at elsewhere
          cases elsewhere

end Reaches

/-- A complete run is the way to a halt. -/
theorem runs_iff_reaches : Runs program locate control processor visited final ↔
    Reaches program locate control processor visited .halted final := by
  constructor
  · intro runs
    induction runs with
    | halted processor => exact .here _ _
    | step found rest ih => exact .step found ih
  · intro reaches
    generalize halt : Control.halted = point at reaches
    induction reaches with
    | here control processor =>
        subst halt
        exact .halted _
    | step found rest ih => exact .step found (ih halt)

/-! ## Limited runs -/

namespace Program

/-- A processor executes a halt as the last of at most `limit` instructions. -/
def HaltsWithin (program : Program) (locate : Word -> UInt32) (start : Processor)
    (limit : Nat) : Prop :=
  ∃ visited final, Runs program locate (.running 0) start visited final ∧ visited.length ≤ limit

/-- A processor leaves a program at its end after fewer than `limit` instructions. -/
def LeavesWithin (program : Program) (locate : Word -> UInt32) (start : Processor)
    (limit : Nat) : Prop :=
  ∃ visited final,
    Reaches program locate (.running 0) start visited (.running program.length) final ∧
    visited.length < limit

variable {start : Processor} {limit pc : Nat}

theorem HaltsWithin.not_leaves (halts : program.HaltsWithin locate start limit) :
    ¬ program.LeavesWithin locate start limit := by
  rcases halts with ⟨visited, final, runs, _⟩
  rintro ⟨others, stopped, leaves, _⟩
  have same := (runs_iff_reaches.mp runs).unique_of_stuck (Control.stuck_halted program) leaves
    (Control.stuck_end program)
  cases same.2.1

theorem not_haltsWithin_of_reaches
    (reaches : Reaches program locate (.running 0) start visited (.running pc) final) :
    ¬ program.HaltsWithin locate start visited.length := by
  rintro ⟨others, halted, runs, within⟩
  have same := (runs_iff_reaches.mp runs).eq_of_reaches_stuck (Control.stuck_halted program)
    reaches within
  cases same.2.1

theorem not_leavesWithin_of_reaches
    (reaches : Reaches program locate (.running 0) start visited (.running pc) final) :
    ¬ program.LeavesWithin locate start visited.length := by
  rintro ⟨others, stopped, leaves, within⟩
  have same := leaves.eq_of_reaches_stuck (Control.stuck_end program) reaches
    (Nat.le_of_lt within)
  rw [same.1] at within
  exact Nat.lt_irrefl _ within

end Program

/-! ## Located programs -/

/-- Two instructions are the same once the words that name addresses in them have been
located. -/
inductive Instruction.Alike (locate relocate : Word -> UInt32) : Instruction -> Instruction -> Prop
  | same {instruction : Instruction} : instruction.address? = none ->
      Alike locate relocate instruction instruction
  | rotateMemory {address moved : Word} : relocate moved = locate address ->
      Alike locate relocate (.rotateMemory address) (.rotateMemory moved)
  | addWithCarry {address moved : Word} : relocate moved = locate address ->
      Alike locate relocate (.addWithCarry address) (.addWithCarry moved)

namespace Instruction.Alike

variable {relocate : Word -> UInt32} {first second : Instruction}

theorem act_eq (alike : Alike locate relocate first second) (processor : Processor) :
    processor.act relocate second = processor.act locate first := by
  cases alike with
  | same noAddress =>
      cases first with
      | rotateMemory address => cases noAddress
      | addWithCarry address => cases noAddress
      | _ => rfl
  | rotateMemory located => rw [Processor.act, Processor.act, located]
  | addWithCarry located => rw [Processor.act, Processor.act, located]

theorem after_eq (alike : Alike locate relocate first second) (pc : Nat) (processor : Processor) :
    processor.after second pc = processor.after first pc := by
  cases alike <;> rfl

end Instruction.Alike

/-- Programs that are alike once located have the same runs. -/
theorem Runs.relocate {moved : Program} {relocate : Word -> UInt32}
    (alike : List.Forall₂ (Instruction.Alike locate relocate) program.instructions
      moved.instructions)
    (runs : Runs program locate control processor visited final) :
    Runs moved relocate control processor visited final := by
  induction runs with
  | halted processor => exact .halted _
  | @step pc instruction processor _ _ found rest ih =>
      rcases exists_of_getElem? alike found with ⟨partner, partnerFound, same⟩
      rw [← same.after_eq, ← same.act_eq] at ih
      exact .step partnerFound ih

/-- A complete run has one end. -/
theorem Runs.unique (runs : Runs program locate control processor visited final)
    (others : Runs program locate control processor longer ending) : ending = final := by
  have first := runs_iff_reaches.mp runs
  have second := runs_iff_reaches.mp others
  exact (first.unique_of_stuck (Control.stuck_halted _) second (Control.stuck_halted _)).2.2

end SymbolicMachine
