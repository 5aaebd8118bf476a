import SymbolicMachine.Proofs.ExecutionSoundness

namespace SymbolicMachine

/-!
# Well-formed machines

A machine whose words have the right widths is never misused.  Whatever is done to it
successfully leaves a machine of this kind, of which the memory is kept in the same shape, and
an instruction or a whole run fails to give a result only for a reason of its own.  The one
thing that has to be asked of instructions is that their operands are addresses.

Widths are not followed through the operations one by one.  With every variable false a
machine represents a processor just if it is well-formed, and for each operation it is known
already that it is no misuse on a machine that represents a processor, and what processor the
machine after it represents.
-/

/-! ## What is represented is well-formed -/

namespace Interpretation

variable {I : Interpretation} {addressWidth valueWidth : Nat} {map : Nat -> Nat}

theorem HoldsCells.uniform {default : Word} {cells : List Cell}
    (holds : I.HoldsCells addressWidth valueWidth default cells map) :
    default.width = valueWidth ∧
      ∀ cell ∈ cells, cell.address.width = addressWidth ∧ cell.value.width = valueWidth := by
  induction holds with
  | nil defaultDenotes => exact ⟨defaultDenotes.width_eq, fun cell member => nomatch member⟩
  | cons addressDenotes valueDenotes older ih =>
      refine ⟨ih.1, ?_⟩
      intro cell member
      rcases List.mem_cons.mp member with rfl | later
      · exact ⟨addressDenotes.width_eq, valueDenotes.width_eq⟩
      · exact ih.2 cell later

theorem HoldsTerm.uniform {term : ArrayTerm}
    (holds : I.HoldsTerm addressWidth valueWidth term map) :
    term.Uniform addressWidth valueWidth := by
  induction holds with
  | constant valueDenotes => exact valueDenotes.width_eq
  | store older addressDenotes valueDenotes ih =>
      exact ⟨ih, addressDenotes.width_eq, valueDenotes.width_eq⟩
  | choice conditionReads left right leftIh rightIh => exact ⟨leftIh, rightIh⟩

theorem Holds.uniform {memory : Memory} (holds : I.Holds addressWidth valueWidth memory map) :
    memory.Uniform addressWidth valueWidth := by
  cases memory with
  | dense memory => exact HoldsCells.uniform holds
  | array term => exact HoldsTerm.uniform holds

theorem Represents.wellFormed {strategy : Strategy} {machine : Machine} {processor : Processor}
    (represents : I.Represents strategy machine processor) : machine.WellFormed := by
  rcases represents.memory with ⟨map, holds, _⟩
  exact ⟨fun register => (represents.register register).width_eq, holds.uniform⟩

/-- With every variable false, every bit has a value. -/
theorem reads_ground (bit : Bit) : ground.Reads bit (bit.eval fun _ => false) :=
  rfl

theorem denotes_ground {word : Word} {width : Nat} (hasWidth : word.width = width) :
    ground.Denotes width word (word.value fun _ => false) := by
  subst hasWidth
  exact denotes_value _ word

end Interpretation

open Interpretation (ground reads_ground denotes_ground)

/-- A well-formed machine whose memory is kept in a given shape. -/
structure Machine.Shaped (strategy : Strategy) (machine : Machine) : Prop where
  wellFormed : machine.WellFormed
  shape : machine.memory.strategy = strategy

variable {strategy : Strategy} {machine : Machine}

/-- Being well-formed is a matter of one interpretation. -/
theorem Machine.shaped_iff :
    machine.Shaped strategy ↔ ∃ processor, ground.Represents strategy machine processor := by
  constructor
  · rintro ⟨wellFormed, rfl⟩
    exact wellFormed.represents fun bit _ => ⟨_, reads_ground bit⟩
  · rintro ⟨processor, represents⟩
    exact ⟨represents.wellFormed, represents.shape⟩

theorem Machine.succeeds_shaped {construction : Checked Machine} {processor : Processor}
    (represents : Succeeds construction fun machine =>
      ground.Represents strategy machine processor) :
    Succeeds construction (Machine.Shaped strategy) :=
  represents.mono fun _ represented => shaped_iff.mpr ⟨processor, represented⟩

/-! ## Operations -/

namespace Machine

theorem shaped_cleared (strategy : Strategy) (fill : Word) :
    Returns (Machine.cleared strategy fill) (Machine.Shaped strategy) := by
  apply Returns.of_require
  intro met
  have denotes := denotes_ground (eq_of_beq met)
  exact (succeeds_shaped (Interpretation.Represents.cleared strategy denotes.toUInt8)).returns

namespace Shaped

theorem withRegister (shaped : machine.Shaped strategy) (register : Register) (value : Word) :
    Returns (machine.withRegister register value) (Machine.Shaped strategy) := by
  rcases shaped_iff.mp shaped with ⟨processor, represents⟩
  apply Returns.of_require
  intro met
  have denotes := denotes_ground (eq_of_beq met)
  exact (succeeds_shaped (represents.withRegister register denotes.toUInt8)).returns

theorem withFlag (shaped : machine.Shaped strategy) (flag : Flag) (bit : Bit) :
    (machine.withFlag flag bit).Shaped strategy := by
  rcases shaped_iff.mp shaped with ⟨processor, represents⟩
  exact shaped_iff.mpr ⟨_, represents.withFlag flag (reads_ground bit)⟩

theorem write (shaped : machine.Shaped strategy) (address value : Word) :
    Returns (machine.write address value) (Machine.Shaped strategy) := by
  rcases shaped_iff.mp shaped with ⟨processor, represents⟩
  apply Returns.of_require
  intro addressMet
  have addressDenotes := denotes_ground (eq_of_beq addressMet)
  by_cases hasWidth : value.width = wordBits
  · have valueDenotes := denotes_ground hasWidth
    exact (succeeds_shaped (represents.write addressDenotes.toUInt32
      valueDenotes.toUInt8)).returns
  · apply Returns.require_bind
    intro _
    apply Returns.require_bind
    intro met
    exact absurd (eq_of_beq met) hasWidth

theorem fillMemory (shaped : machine.Shaped strategy) (value : Word) :
    Returns (machine.fillMemory value) (Machine.Shaped strategy) := by
  rcases shaped_iff.mp shaped with ⟨processor, represents⟩
  apply Returns.of_require
  intro met
  have denotes := denotes_ground (eq_of_beq met)
  exact (succeeds_shaped (represents.fillMemory denotes.toUInt8)).returns

/-- Machines of one shape can be merged. -/
theorem merge {whenTrue whenFalse : Machine} (condition : Bit)
    (trueShaped : whenTrue.Shaped strategy) (falseShaped : whenFalse.Shaped strategy) :
    Succeeds (Machine.merge condition whenTrue whenFalse) (Machine.Shaped strategy) := by
  rcases shaped_iff.mp trueShaped with ⟨left, leftRepresents⟩
  rcases shaped_iff.mp falseShaped with ⟨right, rightRepresents⟩
  exact succeeds_shaped (Interpretation.Represents.merge (reads_ground condition) leftRepresents
    rightRepresents)

end Shaped
end Machine

/-! ## Instructions -/

/-- The operand of an instruction, if it has one, has the width of an address. -/
def Instruction.Addressed (instruction : Instruction) : Prop :=
  ∀ address, instruction.address? = some address -> address.width = addressBits

theorem Instruction.Addressed.locates {instruction : Instruction}
    (addressed : instruction.Addressed) :
    ground.LocatesOperand instruction fun address => .ofNat (address.value fun _ => false) := by
  intro address names
  exact (denotes_ground (addressed address names)).toUInt32

theorem Instruction.exists_of_not_addressed {instruction : Instruction}
    (unaddressed : ¬ instruction.Addressed) :
    ∃ address, instruction.address? = some address ∧ address.width ≠ addressBits := by
  simpa [Addressed] using unaddressed

/-- An instruction with a proper operand can be executed on every well-formed machine. -/
theorem Machine.Shaped.execute (shaped : machine.Shaped strategy) {instruction : Instruction}
    (addressed : instruction.Addressed) :
    Succeeds (instruction.execute machine) fun result => result.1.Shaped strategy := by
  rcases shaped_iff.mp shaped with ⟨processor, represents⟩
  apply (represents.execute 0 instruction addressed.locates).mono
  rintro result ⟨represented, _⟩
  exact shaped_iff.mpr ⟨_, represented⟩

/-- Any other operand is a misuse on every machine. -/
theorem Instruction.execute_misused {instruction : Instruction} {address : Word}
    (names : instruction.address? = some address) (wrong : address.width ≠ addressBits)
    (machine : Machine) (session : Session) :
    ((instruction.execute machine).run.run session).1 = .error (.addressWidth address.width) := by
  have refused : (address.width == addressBits) = false := beq_eq_false_iff_ne.mpr wrong
  have misread : machine.read address = throw (.addressWidth address.width) := by
    rw [Machine.read, Machine.requireAddress, require, refused]
    rfl
  cases instruction with
  | rotateMemory _ | addWithCarry _ =>
      cases names
      rw [execute, misread]
      rfl
  | _ => cases names

/-- Whatever the operand, an instruction that has a result leaves a well-formed machine. -/
theorem Machine.Shaped.returns_execute (shaped : machine.Shaped strategy)
    (instruction : Instruction) :
    Returns (instruction.execute machine) fun result => result.1.Shaped strategy := by
  by_cases addressed : instruction.Addressed
  · exact (shaped.execute addressed).returns
  · rcases instruction.exists_of_not_addressed addressed with ⟨address, names, wrong⟩
    intro session
    exact .inl ⟨_, Instruction.execute_misused names wrong machine session⟩

/-! ## Runs -/

/-- A run of a program with proper operands is never misused. -/
theorem Machine.Shaped.run (shaped : machine.Shaped strategy) {program : Program}
    (addressed : program.Addressed) (limit : Nat) :
    Yields (program.run machine limit) fun execution => execution.machine.Shaped strategy := by
  rcases shaped_iff.mp shaped with ⟨processor, represents⟩
  have located : ground.Locates program fun address => .ofNat (address.value fun _ => false) :=
    fun instruction member => Instruction.Addressed.locates (addressed instruction member)
  apply (represents.run located limit).mono
  rintro execution ⟨visited, final, _, _, represented⟩
  exact shaped_iff.mpr ⟨final, represented⟩

/-- A machine that has come about from a cleared one by operations that were not misused, and
the shape that the memory of the cleared machine was given. -/
inductive Machine.Obtained : Strategy -> Machine -> Prop
  | cleared {machine : Machine} (strategy : Strategy) (fill : Word) :
      CanReturn (Machine.cleared strategy fill) machine -> Obtained strategy machine
  | withRegister {strategy : Strategy} {machine changed : Machine} (register : Register)
      (value : Word) : Obtained strategy machine ->
      CanReturn (machine.withRegister register value) changed -> Obtained strategy changed
  | withFlag {strategy : Strategy} {machine : Machine} (flag : Flag) (bit : Bit) :
      Obtained strategy machine -> Obtained strategy (machine.withFlag flag bit)
  | write {strategy : Strategy} {machine changed : Machine} (address value : Word) :
      Obtained strategy machine -> CanReturn (machine.write address value) changed ->
      Obtained strategy changed
  | fillMemory {strategy : Strategy} {machine changed : Machine} (value : Word) :
      Obtained strategy machine -> CanReturn (machine.fillMemory value) changed ->
      Obtained strategy changed
  /-- Both machines have a history of their own, but keep their memories alike. -/
  | merge {first second : Strategy} {whenTrue whenFalse merged : Machine} (condition : Bit) :
      Obtained first whenTrue -> Obtained second whenFalse ->
      whenTrue.memory.strategy = whenFalse.memory.strategy ->
      CanReturn (Machine.merge condition whenTrue whenFalse) merged -> Obtained first merged
  | execute {strategy : Strategy} {machine changed : Machine} {flow : Flow}
      (instruction : Instruction) : Obtained strategy machine ->
      CanReturn (instruction.execute machine) (changed, flow) -> Obtained strategy changed

theorem Machine.Obtained.shaped (obtained : Machine.Obtained strategy machine) :
    machine.Shaped strategy := by
  induction obtained with
  | cleared strategy fill returned => exact (shaped_cleared strategy fill).of_canReturn returned
  | withRegister register value _ returned ih =>
      exact (ih.withRegister register value).of_canReturn returned
  | withFlag flag bit _ ih => exact ih.withFlag flag bit
  | write address value _ returned ih => exact (ih.write address value).of_canReturn returned
  | fillMemory value _ returned ih => exact (ih.fillMemory value).of_canReturn returned
  | merge condition _ _ alike returned trueIh falseIh =>
      rw [trueIh.shape, falseIh.shape] at alike
      subst alike
      exact (trueIh.merge condition falseIh).returns.of_canReturn returned
  | execute instruction _ returned ih =>
      exact (ih.returns_execute instruction).of_canReturn returned

/-- Well-formed machines are never misused.  Every machine that comes about by operations that
were not misused is well-formed and keeps the shape of its memory.  On a well-formed machine
an instruction is misused just if it has an operand that is no address, and a run of a program
whose operands are addresses is never misused, however long it is. -/
theorem Machine.wellFormed_never_misused :
    (∀ strategy machine, Machine.Obtained strategy machine -> machine.Shaped strategy) ∧
    (∀ (machine : Machine) (instruction : Instruction), machine.WellFormed ->
      (instruction.Addressed ->
        Succeeds (instruction.execute machine) fun result =>
          result.1.Shaped machine.memory.strategy) ∧
      ∀ address, instruction.address? = some address -> address.width ≠ addressBits ->
        ∀ session, ((instruction.execute machine).run.run session).1 =
          .error (.addressWidth address.width)) ∧
    ∀ (machine : Machine) (program : Program) (limit : Nat), machine.WellFormed ->
      program.Addressed ->
      Yields (program.run machine limit) fun execution =>
        execution.machine.Shaped machine.memory.strategy := by
  refine ⟨fun strategy machine obtained => obtained.shaped, ?_, ?_⟩
  · intro machine instruction wellFormed
    have shaped : machine.Shaped machine.memory.strategy := ⟨wellFormed, rfl⟩
    refine ⟨fun addressed => shaped.execute addressed, ?_⟩
    intro address names wrong session
    exact Instruction.execute_misused names wrong machine session
  · intro machine program limit wellFormed addressed
    have shaped : machine.Shaped machine.memory.strategy := ⟨wellFormed, rfl⟩
    exact shaped.run addressed limit

theorem Program.rotateIfSet_addressed : rotateIfSet.Addressed := by
  intro instruction member address names
  simp only [rotateIfSet, List.mem_cons, List.not_mem_nil, or_false] at member
  rcases member with rfl | rfl | rfl
  · cases names
  · cases names
    rfl
  · cases names

/-- A machine in which an open flag was rotated into a register, merged under an open condition
with the machine before, is well-formed, and so is the machine in which a forking run ends.  An
operand as narrow as a word is a misuse. -/
theorem Machine.wellFormed_never_misused_rotations :
    (∃ machine, Machine.Obtained .dense machine ∧ machine.Shaped .dense ∧
      machine.a.known = none) ∧
    openCarry.WellFormed ∧ Program.rotateIfSet.Addressed ∧
    (Yields (Program.rotateIfSet.run openCarry 3) fun execution =>
      execution.machine.Shaped .dense) ∧
    (((Instruction.rotateMemory (.constant 1 8)).execute openCarry).run.run {}).1 =
      .error (.addressWidth 8) := by
  have cleared : Machine.Obtained .dense
      ⟨.dense (.reset (.constant 6 8)), .zero 8, .zero 8, .zero, .zero⟩ :=
    .cleared .dense (.constant 6 8) ⟨{}, rfl⟩
  have written : Machine.Obtained .dense ⟨.dense ⟨.constant 6 8,
      [⟨.halfOpenAddress, .constant 129 8⟩]⟩, .zero 8, .zero 8, .zero, .zero⟩ :=
    .write .halfOpenAddress (.constant 129 8) cleared ⟨{}, rfl⟩
  have merged : ∃ machine, Machine.Obtained .dense machine ∧ machine.a.known = none :=
    ⟨_, .merge (.var 0)
      (.execute (.rotateRegister .a) (written.withFlag .carry (.var 1)) ⟨{}, rfl⟩) written rfl
      ⟨{}, rfl⟩, rfl⟩
  rcases merged with ⟨machine, obtained, undecided⟩
  have wellFormed := openCarry_wellFormed
  have addressed := Program.rotateIfSet_addressed
  have never := wellFormed_never_misused
  refine ⟨⟨machine, obtained, never.1 _ _ obtained, undecided⟩, wellFormed, addressed,
    never.2.2 openCarry Program.rotateIfSet 3 wellFormed addressed, ?_⟩
  exact (never.2.1 openCarry (.rotateMemory (.constant 1 8)) wellFormed).2 _ rfl (by decide) {}

end SymbolicMachine
