import SymbolicMachine.Proofs.MultiplierRounds
import SymbolicMachine.Proofs.RenamedMachines
import SymbolicMachine.Verification.Basic

namespace SymbolicMachine

/-!
# Runs under other names

A run on a renamed machine is the renamed run: it takes the same way, forks and joins where the
other does, and ends in the same manner.  A verification can therefore be told from another one of
the same inputs by nothing but names, whatever else was built in the session before.
-/

variable {α β γ δ ε : Type} {names : Nat ↪ Nat}

/-! ## Tables -/

namespace Table

/-- The table with every value changed. -/
def map (change : α -> β) (table : Table α) : Table β where
  entries := table.entries.map fun entry => (entry.1, change entry.2)
  ascending := List.pairwise_map.mpr table.ascending

theorem get?_map (change : α -> β) (table : Table α) (key : Nat) :
    (table.map change).get? key = (table.get? key).map change := by
  rcases table with ⟨entries, ascending⟩
  simp only [map, get?]
  induction entries with
  | nil => rfl
  | cons entry entries ih =>
      rw [List.map_cons, List.lookup_cons, List.lookup_cons]
      cases key == entry.1 with
      | true => rfl
      | false => exact ih (List.pairwise_cons.mp ascending).2

theorem map_insert (change : α -> β) (table : Table α) (key : Nat) (value : α) :
    (table.insert key value).map change = (table.map change).insert key (change value) := by
  rcases table with ⟨entries, ascending⟩
  simp only [map, insert, Table.mk.injEq]
  induction entries with
  | nil => rfl
  | cons entry entries ih =>
      rw [List.map_cons]
      unfold insertEntry
      split
      · rfl
      · split
        · rfl
        · rw [List.map_cons, ih (List.pairwise_cons.mp ascending).2]

theorem popFirst?_map (change : α -> β) (table : Table α) :
    (table.map change).popFirst? =
      table.popFirst?.map (Prod.map (Prod.map id change) (map change)) := by
  rcases table with ⟨_ | ⟨entry, entries⟩, ascending⟩ <;> rfl

end Table

/-! ## Computations that may fail -/

/-- In sessions that correspond two computations fail for the same reason or have results that
are related, and leave sessions that correspond. -/
def EndsAlike (names : Nat ↪ Nat) (related : α -> β -> Prop) (first : ExceptT ε Checked α)
    (second : ExceptT ε Checked β) : Prop :=
  ChecksAlike names (OutcomesAlike related) first.run second.run

namespace EndsAlike

variable {related : α -> β -> Prop} {after : γ -> δ -> Prop}

theorem pure {value : α} {other : β} (holds : related value other) :
    EndsAlike names related (Pure.pure value : ExceptT ε Checked α) (Pure.pure other) :=
  ChecksAlike.pure (.ok holds)

theorem throw (cause : ε) :
    EndsAlike names related (MonadExcept.throw cause : ExceptT ε Checked α)
      (MonadExcept.throw cause : ExceptT ε Checked β) :=
  ChecksAlike.pure (.error cause)

theorem bind {first : ExceptT ε Checked α} {second : ExceptT ε Checked β}
    {next : α -> ExceptT ε Checked γ} {next' : β -> ExceptT ε Checked δ}
    (alike : EndsAlike names related first second)
    (continued : ∀ value other, related value other ->
      EndsAlike names after (next value) (next' other)) :
    EndsAlike names after (first >>= next) (second >>= next') := by
  unfold EndsAlike
  rw [ExceptT.run_bind, ExceptT.run_bind]
  apply ChecksAlike.bind alike
  intro outcome outcome' outcomes
  cases outcomes with
  | ok results => exact continued _ _ results
  | error cause => exact .pure (.error cause)

theorem lift_bind {first : Checked α} {second : Checked β} {next : α -> ExceptT ε Checked γ}
    {next' : β -> ExceptT ε Checked δ} (alike : ChecksAlike names related first second)
    (continued : ∀ value other, related value other ->
      EndsAlike names after (next value) (next' other)) :
    EndsAlike names after (liftM first >>= next) (liftM second >>= next') := by
  unfold EndsAlike
  rw [ExceptT.run_bind, ExceptT.run_liftM, bind_map_left, ExceptT.run_bind, ExceptT.run_liftM,
    bind_map_left]
  exact alike.bind continued

theorem report_bind {event event' : Event} {next : Unit -> ExceptT ε Checked γ}
    {next' : Unit -> ExceptT ε Checked δ}
    (continued : EndsAlike names after (next ()) (next' ())) :
    EndsAlike names after (liftM (report event) >>= next) (liftM (report event') >>= next') :=
  lift_bind (ChecksAlike.lift (alike_report event event')) fun _ _ _ => continued

theorem adapt {first : ExceptT ε Checked α} {second : ExceptT ε Checked β} {ε' : Type}
    (reason : ε -> ε') (alike : EndsAlike names related first second) :
    EndsAlike names related (first.adapt reason) (second.adapt reason) := by
  apply ChecksAlike.bind alike
  intro outcome outcome' outcomes
  cases outcomes with
  | ok results => exact .pure (.ok results)
  | error cause => exact .pure (.error (reason cause))

end EndsAlike

/-! ## Threads -/

namespace Thread

/-- The thread with other names. -/
def rename (names : Nat ↪ Nat) (thread : Thread) : Thread where
  predicate := thread.predicate.rename names
  machine := thread.machine.rename names

theorem alike_join (first second : Thread) :
    ChecksAlike names (Becomes (rename names)) (first.join second)
      ((first.rename names).join (second.rename names)) := by
  apply (Machine.alike_merge first.predicate first.machine second.machine).andThen
  intro machine
  apply (ChecksAlike.lift (first.predicate.alike_or second.predicate)).andThen
  intro predicate
  exact .pure rfl

end Thread

namespace Progress

/-- The run on its way with other names. -/
def rename (names : Nat ↪ Nat) (progress : Progress) : Progress where
  pending := progress.pending.map (Thread.rename names)
  halted := progress.halted.map (Thread.rename names)
  trace := progress.trace

theorem alike_schedule (progress : Progress) (pc : Nat) (thread : Thread) :
    ChecksAlike names (Becomes (rename names)) (progress.schedule pc thread)
      ((progress.rename names).schedule pc (thread.rename names)) := by
  have found : (progress.rename names).pending.get? pc =
      (progress.pending.get? pc).map (Thread.rename names) := Table.get?_map _ _ _
  unfold schedule scheduleBy
  rw [found]
  cases progress.pending.get? pc with
  | none =>
      apply ChecksAlike.pure
      simp [Becomes, rename, Table.map_insert]
  | some existing =>
      apply (ChecksAlike.lift (alike_report _ _)).bind
      intro _ _ _
      apply (existing.alike_join thread).andThen
      intro joined
      apply ChecksAlike.pure
      simp [Becomes, rename, Table.map_insert]

theorem alike_retire (progress : Progress) (pc : Nat) (thread : Thread) :
    ChecksAlike names (Becomes (rename names)) (progress.retire pc thread)
      ((progress.rename names).retire pc (thread.rename names)) := by
  apply (ChecksAlike.lift (alike_report _ _)).bind
  intro _ _ _
  rcases progress with ⟨pending, _ | previous, trace⟩
  · exact .pure rfl
  · apply (previous.alike_join thread).andThen
    intro joined
    exact .pure rfl

theorem alike_follow (progress : Progress) (pc : Nat) (thread : Thread) (condition : Bit)
    (destination : Nat) :
    ChecksAlike names (Becomes (rename names)) (progress.follow pc thread condition destination)
      ((progress.rename names).follow pc (thread.rename names) (condition.rename names)
        destination) := by
  unfold follow followBy
  rw [Bit.known_rename]
  cases condition.known with
  | some taken =>
      cases taken with
      | true => exact progress.alike_schedule destination thread
      | false => exact progress.alike_schedule (pc + 1) thread
  | none =>
      apply (ChecksAlike.lift (alike_report _ _)).bind
      intro _ _ _
      apply (ChecksAlike.lift (thread.predicate.alike_and condition)).andThen
      intro taken
      apply (ChecksAlike.lift condition.alike_not).andThen
      intro negated
      apply (ChecksAlike.lift (thread.predicate.alike_and negated)).andThen
      intro notTaken
      apply (alike_schedule { progress with trace := progress.trace.fork } destination
        { thread with predicate := taken }).andThen
      intro scheduled
      exact scheduled.alike_schedule (pc + 1) { thread with predicate := notTaken }

theorem alike_step (progress : Progress) (pc : Nat) (thread : Thread) (instruction : Instruction) :
    ChecksAlike names (Becomes (rename names)) (progress.step pc thread instruction)
      ((progress.rename names).step pc (thread.rename names) (instruction.rename names)) := by
  apply (instruction.alike_execute thread.machine).andThen
  rintro ⟨machine, flow⟩
  cases flow with
  | next =>
      exact alike_schedule { progress with trace := progress.trace.visit pc } (pc + 1)
        { thread with machine }
  | branch condition destination =>
      exact alike_follow { progress with trace := progress.trace.visit pc } pc
        { thread with machine } condition destination
  | halt =>
      exact alike_retire { progress with trace := progress.trace.visit pc } pc
        { thread with machine }

end Progress

/-! ## Runs -/

/-- The finished run with other names. -/
def Execution.rename (names : Nat ↪ Nat) (execution : Execution) : Execution where
  predicate := execution.predicate.rename names
  machine := execution.machine.rename names
  trace := execution.trace

namespace Program

variable {program renamed : Program}

theorem get?_renamed (same : renamed.instructions = program.instructions.map (Instruction.rename names))
    (pc : Nat) : renamed.get? pc = (program.get? pc).map (Instruction.rename names) := by
  rw [get?, get?, same, List.getElem?_map]

theorem alike_explore
    (same : renamed.instructions = program.instructions.map (Instruction.rename names))
    (limit remaining : Nat) (progress : Progress) :
    EndsAlike names (Becomes (Progress.rename names)) (program.explore limit remaining progress)
      (renamed.explore limit remaining (progress.rename names)) := by
  have length : renamed.length = program.length := by
    rw [Program.length, Program.length, same, List.length_map]
  induction remaining generalizing progress with
  | zero =>
      have popped := progress.pending.popFirst?_map (Thread.rename names)
      unfold explore
      rw [Progress.rename, popped]
      cases progress.pending.popFirst? with
      | none => exact .pure rfl
      | some first =>
          apply EndsAlike.report_bind
          exact EndsAlike.throw (ExecutionError.stepLimitExceeded limit)
  | succ remaining ih =>
      have popped := progress.pending.popFirst?_map (Thread.rename names)
      unfold explore
      rw [Progress.rename, popped]
      cases progress.pending.popFirst? with
      | none => exact .pure rfl
      | some first =>
          rcases first with ⟨⟨pc, thread⟩, rest⟩
          have found := get?_renamed same pc
          dsimp only [Option.map_some, Prod.map_apply, id]
          rw [found, length]
          cases program.get? pc with
          | none => exact EndsAlike.throw (ExecutionError.counterOutOfRange pc program.length)
          | some instruction =>
              apply EndsAlike.lift_bind
                (Progress.alike_step { progress with pending := rest } pc thread instruction)
              rintro next _ rfl
              exact ih next

/-- A run on a renamed machine is the renamed run. -/
theorem alike_run (same : renamed.instructions = program.instructions.map (Instruction.rename names))
    (machine : Machine) (limit : Nat) :
    EndsAlike names (Becomes (Execution.rename names)) (program.run machine limit)
      (renamed.run (machine.rename names) limit) := by
  apply (alike_explore same limit limit (.start machine)).bind
  rintro ⟨pending, _ | thread, trace⟩ _ rfl
  · exact EndsAlike.throw ExecutionError.noHalt
  · apply EndsAlike.report_bind
    exact .pure rfl

end Program

/-! ## Verifications -/

/-- The inputs with other names. -/
def Inputs.rename (names : Nat ↪ Nat) (inputs : Inputs) : Inputs where
  memoryBase := inputs.memoryBase.rename names
  factor1Address := inputs.factor1Address.rename names
  factor1 := inputs.factor1.rename names
  factor2Address := inputs.factor2Address.rename names
  factor2 := inputs.factor2.rename names
  lowAddress := inputs.lowAddress.rename names
  x := inputs.x.rename names
  a := inputs.a.rename names
  memoryFill := inputs.memoryFill.rename names
  carry := inputs.carry.rename names
  zero := inputs.zero.rename names

namespace Verification

theorem alike_initialMachine (settings : Settings) (inputs : Inputs) :
    ChecksAlike names (Becomes (Machine.rename names)) (initialMachine settings inputs)
      (initialMachine settings (inputs.rename names)) := by
  apply (Machine.alike_cleared settings.strategy inputs.memoryBase).andThen
  intro cleared
  apply (cleared.alike_fillMemory inputs.memoryFill).andThen
  intro filled
  apply (filled.alike_withRegister .x inputs.x).andThen
  intro withX
  apply (withX.alike_withRegister .a inputs.a).andThen
  intro withA
  apply (Machine.alike_write ((withA.withFlag .carry inputs.carry).withFlag .zero inputs.zero)
    inputs.factor1Address inputs.factor1).andThen
  intro withFactor
  exact withFactor.alike_write inputs.factor2Address inputs.factor2

/-- A verification of renamed inputs comes to the renamed result. -/
theorem alike_run (settings : Settings) (inputs : Inputs) :
    EndsAlike names (fun run other => other.execution = run.execution.rename names ∧
        other.high = run.high.rename names ∧ other.low = run.low.rename names)
      (run settings inputs) (run settings (inputs.rename names)) := by
  rcases Multiplier.program_eq_ok inputs.factor1Address inputs.factor2Address inputs.lowAddress
    with ⟨program, assembled, code⟩
  rcases Multiplier.program_eq_ok (inputs.factor1Address.rename names)
    (inputs.factor2Address.rename names) (inputs.lowAddress.rename names)
    with ⟨renamed, reassembled, renamedCode⟩
  have same : renamed.instructions = program.instructions.map (Instruction.rename names) := by
    rw [code, renamedCode]
    rfl
  unfold run
  rw [assembled, Inputs.rename, reassembled]
  apply EndsAlike.report_bind
  apply EndsAlike.lift_bind (alike_initialMachine settings inputs)
  rintro machine _ rfl
  apply ((Program.alike_run same machine settings.stepLimit).adapt Error.execution).bind
  rintro execution _ rfl
  apply EndsAlike.lift_bind (execution.machine.alike_read inputs.lowAddress)
  rintro low _ rfl
  exact .pure ⟨rfl, rfl, rfl⟩

end Verification

/-! ## Sessions of different age -/

/-- Keep the names below a bound and move the others up. -/
def moveUp (bound distance : Nat) : Nat ↪ Nat where
  toFun name := if name < bound then name else name + distance
  inj' := by
    intro first second same
    dsimp only at same
    split at same <;> split at same <;> omega

theorem moveUp_of_lt {bound name : Nat} (below : name < bound) (distance : Nat) :
    moveUp bound distance name = name :=
  if_pos below

/-- A session hands out the names of an older one, moved up by what it has handed out since. -/
theorem Session.renamed_moveUp {older newer : Session} (aged : older.nextName ≤ newer.nextName) :
    older.Renamed (moveUp older.nextName (newer.nextName - older.nextName)) newer := by
  intro index
  have beyond : ¬ older.nextName + index < older.nextName := by omega
  have moved : moveUp older.nextName (newer.nextName - older.nextName) (older.nextName + index) =
      older.nextName + index + (newer.nextName - older.nextName) := if_neg beyond
  rw [moved]
  omega

/-- Every name in a bit is below a bound. -/
def Bit.NamedBelow (bound : Nat) : Bit -> Prop
  | literal _ | var _ => True
  | notGate wire input => wire < bound ∧ input.NamedBelow bound
  | andGate leftWire left rightWire right =>
      leftWire < bound ∧ left.NamedBelow bound ∧ rightWire < bound ∧ right.NamedBelow bound

theorem Bit.rename_moveUp {bound : Nat} {bit : Bit} (below : bit.NamedBelow bound)
    (distance : Nat) : bit.rename (moveUp bound distance) = bit := by
  induction bit with
  | literal value => rfl
  | var id => rfl
  | notGate wire input ih => rw [rename, moveUp_of_lt below.1, ih below.2]
  | andGate leftWire left rightWire right leftIh rightIh =>
      rw [rename, moveUp_of_lt below.1, leftIh below.2.1, moveUp_of_lt below.2.2.1,
        rightIh below.2.2.2]

theorem Word.rename_moveUp {bound : Nat} {word : Word}
    (below : ∀ bit ∈ word.bits, bit.NamedBelow bound) (distance : Nat) :
    word.rename (moveUp bound distance) = word := by
  have bits : word.bits.map (Bit.rename (moveUp bound distance)) = word.bits.map id :=
    List.map_congr_left fun bit member => Bit.rename_moveUp (below bit member) distance
  rw [rename, bits, List.map_id]

/-- Every name in the inputs is below a bound, as it is in a session that has handed them out. -/
def Inputs.NamedBelow (inputs : Inputs) (bound : Nat) : Prop :=
  ∀ name, ∀ bit ∈ (inputs.get name).toWord.bits, bit.NamedBelow bound

theorem Inputs.rename_moveUp {bound : Nat} {inputs : Inputs} (below : inputs.NamedBelow bound)
    (distance : Nat) : inputs.rename (moveUp bound distance) = inputs := by
  have words : ∀ name, (inputs.get name).toWord.rename (moveUp bound distance) =
      (inputs.get name).toWord := fun name => Word.rename_moveUp (below name) distance
  have carry := Bit.rename_moveUp (below .carry _ List.mem_cons_self) distance
  have zero := Bit.rename_moveUp (below .zero _ List.mem_cons_self) distance
  rcases inputs with ⟨memoryBase, factor1Address, factor1, factor2Address, factor2, lowAddress, x, a,
    memoryFill, carryIn, zeroIn⟩
  rw [Inputs.rename, Inputs.mk.injEq]
  exact ⟨words .memoryBase, words .factor1Address, words .factor1, words .factor2Address,
    words .factor2, words .lowAddress, words .x, words .a, words .memoryFill, carry, zero⟩

/-- A verification ends in the same manner in every session that has handed out the names in its
inputs. -/
theorem Verification.outcomes_alike {inputs : Inputs} {older newer : Session}
    (below : inputs.NamedBelow older.nextName) (aged : older.nextName ≤ newer.nextName)
    (settings : Settings) :
    let names := moveUp older.nextName (newer.nextName - older.nextName)
    OutcomesAlike (OutcomesAlike fun run other => other.execution = run.execution.rename names ∧
        other.high = run.high.rename names ∧ other.low = run.low.rename names)
      ((run settings inputs).run.run.run older).1 ((run settings inputs).run.run.run newer).1 := by
  intro names
  have alike := alike_run settings inputs older newer (Session.renamed_moveUp aged)
  rw [Inputs.rename_moveUp below] at alike
  exact alike.1

end SymbolicMachine
