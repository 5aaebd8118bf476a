import SymbolicMachine.Execution.Thread
import SymbolicMachine.Machine.Instruction
import SymbolicMachine.Word.Lemmas

namespace SymbolicMachine

/-!
# What is left alone

An instruction sets one register at most, and all instructions but branches and the halt let
control go on with the next one.  A merge of two machines that agree on a register keeps that
register as it is, bit for bit: nothing is built for it, so what was known of it stays known.

These facts do not depend on what the bits of a machine mean, nor on the widths of its
words.  If an operation is misused, there is no machine of which they could fail.
-/

/-! ## Parts -/

namespace Machine

theorem register_withRegister (machine : Machine) (register : Register) (value : Word) :
    Returns (machine.withRegister register value) fun changed =>
      changed.register register = value ∧
      ∀ other, (register == other) = false ->
        changed.register other = machine.register other := by
  apply Returns.require_bind
  intro _
  cases register with
  | x =>
      apply Returns.pure
      refine ⟨rfl, ?_⟩
      intro other different
      cases other with
      | x => cases different
      | a => rfl
  | a =>
      apply Returns.pure
      refine ⟨rfl, ?_⟩
      intro other different
      cases other with
      | x => rfl
      | a => cases different

theorem register_withFlag (machine : Machine) (flag : Flag) (bit : Bit) :
    (machine.withFlag flag bit).register = machine.register := by
  funext register
  cases flag <;> cases register <;> rfl

theorem register_write (machine : Machine) (address value : Word) :
    Returns (machine.write address value) fun changed =>
      changed.register = machine.register := by
  apply Returns.require_bind
  intro _
  apply Returns.require_bind
  intro _
  apply (Returns.any _).bind
  intro memory _
  apply Returns.pure
  funext register
  cases register <;> rfl

/-- A merge keeps the registers on which both machines agree. -/
theorem register_merge (condition : Bit) (whenTrue whenFalse : Machine) :
    Returns (Machine.merge condition whenTrue whenFalse) fun merged => ∀ register,
      whenTrue.register register = whenFalse.register register ->
      merged.register register = whenTrue.register register := by
  unfold Machine.merge
  cases condition.known with
  | some value =>
      cases value with
      | true => exact .pure fun register _ => rfl
      | false => exact .pure fun register same => same.symm
  | none =>
      apply (Returns.any _).bind
      intro memory _
      apply (Word.returns_select condition whenTrue.x whenFalse.x).bind
      intro x keptX
      apply (Word.returns_select condition whenTrue.a whenFalse.a).bind
      intro a keptA
      apply (Returns.any _).bind
      intro carry _
      apply (Returns.any _).bind
      intro zero _
      apply Returns.pure
      intro register same
      cases register with
      | x => exact keptX same
      | a => exact keptA same

end Machine

theorem Thread.register_join (first second : Thread) :
    Returns (first.join second) fun joined => ∀ register,
      first.machine.register register = second.machine.register register ->
      joined.machine.register register = first.machine.register register := by
  apply (Machine.register_merge first.predicate first.machine second.machine).bind
  intro machine kept
  apply (Returns.any _).bind
  intro predicate _
  exact .pure kept

/-! ## Instructions -/

namespace Instruction

/-- An instruction sets a register. -/
def sets (register : Register) : Instruction -> Bool
  | load target _ | rotateRegister target | decrement target => target == register
  | addWithCarry _ => Register.a == register
  | clearCarry | rotateMemory _ | branchIfClear _ _ | halt => false

/-- After an instruction control goes on with the next one. -/
def isPlain : Instruction -> Bool
  | branchIfClear _ _ | halt => false
  | _ => true

/-- An instruction leaves the registers alone that it does not set, and lets control go on
with the next instruction unless it is there to direct control. -/
theorem execute_frame (instruction : Instruction) (machine : Machine) :
    Returns (instruction.execute machine) fun result =>
      (∀ register, instruction.sets register = false ->
        result.1.register register = machine.register register) ∧
      (instruction.isPlain = true -> result.2 = .next) := by
  cases instruction with
  | load target value =>
      apply (machine.register_withRegister target _).bind
      rintro changed ⟨_, kept⟩
      exact .pure ⟨kept, fun _ => rfl⟩
  | clearCarry =>
      apply Returns.pure
      rw [Machine.register_withFlag]
      exact ⟨fun _ _ => rfl, fun _ => rfl⟩
  | rotateMemory address =>
      apply (Returns.any _).bind
      intro value _
      apply (Returns.any _).bind
      rintro ⟨rotated, carry⟩ _
      apply (machine.register_write address rotated).bind
      intro changed kept
      apply Returns.pure
      rw [Machine.register_withFlag, kept]
      exact ⟨fun _ _ => rfl, fun _ => rfl⟩
  | rotateRegister target =>
      apply (Returns.any _).bind
      rintro ⟨rotated, carry⟩ _
      apply (machine.register_withRegister target rotated).bind
      rintro changed ⟨_, kept⟩
      apply Returns.pure
      rw [Machine.register_withFlag]
      exact ⟨kept, fun _ => rfl⟩
  | addWithCarry address =>
      apply (Returns.any _).bind
      intro operand _
      apply (Returns.any _).bind
      rintro ⟨sum, carry⟩ _
      apply (Returns.any _).bind
      intro zero _
      apply (machine.register_withRegister .a sum).bind
      rintro changed ⟨_, kept⟩
      apply Returns.pure
      rw [Machine.register_withFlag, Machine.register_withFlag]
      exact ⟨kept, fun _ => rfl⟩
  | decrement target =>
      apply (Returns.any _).bind
      intro difference _
      apply (Returns.any _).bind
      intro zero _
      apply (machine.register_withRegister target difference).bind
      rintro changed ⟨_, kept⟩
      apply Returns.pure
      rw [Machine.register_withFlag]
      exact ⟨kept, fun _ => rfl⟩
  | branchIfClear flag target =>
      apply (Returns.any _).bind
      intro condition _
      exact .pure ⟨fun _ _ => rfl, fun impossible => nomatch impossible⟩
  | halt => exact .pure ⟨fun _ _ => rfl, fun impossible => nomatch impossible⟩

/-- A branch leaves the machine alone, and a known flag decides it. -/
theorem execute_branch (flag : Flag) (target : Nat) (machine : Machine) :
    Succeeds ((branchIfClear flag target).execute machine) fun result =>
      ∃ condition, result = (machine, .branch condition target) ∧
        ∀ value, machine.flag flag = .literal value -> condition = .literal (!value) := by
  have negated : Gives (machine.flag flag).not fun condition =>
      ∀ value, machine.flag flag = .literal value -> condition = .literal (!value) := by
    intro session value same
    rw [same]
    rfl
  apply (Succeeds.lift negated).bind
  intro condition decided
  exact .pure ⟨condition, rfl, decided⟩

end Instruction
end SymbolicMachine
