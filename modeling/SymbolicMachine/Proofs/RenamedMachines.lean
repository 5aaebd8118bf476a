import SymbolicMachine.Machine.Instruction
import SymbolicMachine.Proofs.Renaming

namespace SymbolicMachine

/-!
# Machines under other names

What holds of bits and words holds of the machines that are made of them.  Array memory has names
of its own and remembers what it has read by them, so the words that two readings remember have
to correspond as well.  That an instruction may be misused, and how control goes on after it, is
not a matter of names.
-/

variable {names : Nat ↪ Nat}

/-! ## Dense memory -/

/-- The cell with other names for the wires of its bits. -/
def Cell.rename (names : Nat ↪ Nat) (cell : Cell) : Cell where
  address := cell.address.rename names
  value := cell.value.rename names

namespace DenseMemory

/-- The memory with other names for the wires of its bits. -/
def rename (names : Nat ↪ Nat) (memory : DenseMemory) : DenseMemory where
  default := memory.default.rename names
  cells := memory.cells.map (Cell.rename names)

theorem alike_readCells (default address : Word) (cells : List Cell) :
    ChecksAlike names (Becomes (Word.rename names)) (readCells default address cells)
      (readCells (default.rename names) (address.rename names) (cells.map (Cell.rename names))) := by
  induction cells with
  | nil => exact .pure rfl
  | cons cell older ih =>
      rw [List.map_cons]
      unfold readCells
      rw [Cell.rename, Word.identical_rename]
      cases cell.address.identical address with
      | true => exact .pure rfl
      | false =>
          apply ih.andThen
          intro shadowed
          apply (address.alike_equals cell.address).andThen
          intro hit
          exact Word.alike_select hit cell.value shadowed

theorem alike_read (memory : DenseMemory) (address : Word) :
    ChecksAlike names (Becomes (Word.rename names)) (memory.read address)
      ((memory.rename names).read (address.rename names)) :=
  alike_readCells memory.default address memory.cells

theorem rename_write (names : Nat ↪ Nat) (memory : DenseMemory) (address value : Word) :
    (memory.write address value).rename names =
      (memory.rename names).write (address.rename names) (value.rename names) := by
  simp [rename, write, Cell.rename, List.filter_map, Function.comp_def]

theorem touched_rename (names : Nat ↪ Nat) (memory : DenseMemory) :
    (memory.rename names).touched = memory.touched.map (Word.rename names) := by
  simp [rename, touched, Cell.rename, Function.comp_def]

theorem jointAddresses_rename (names : Nat ↪ Nat) (whenTrue whenFalse : DenseMemory) :
    jointAddresses (whenTrue.rename names) (whenFalse.rename names) =
      (jointAddresses whenTrue whenFalse).map (Word.rename names) := by
  have oneAddress : ∀ (gathered : List Word) (address : Word),
      gather (gathered.map (Word.rename names)) (address.rename names) =
        (gather gathered address).map (Word.rename names) := by
    intro gathered address
    simp [gather, apply_ite (List.map _), Function.comp_def]
  rw [jointAddresses, touched_rename, touched_rename, List.foldl_map]
  exact List.foldl_hom (List.map (Word.rename names)) oneAddress

theorem alike_merge (condition : Bit) (whenTrue whenFalse : DenseMemory) :
    ChecksAlike names (Becomes (rename names)) (merge condition whenTrue whenFalse)
      (merge (condition.rename names) (whenTrue.rename names) (whenFalse.rename names)) := by
  unfold merge
  rw [jointAddresses_rename]
  have cell : ∀ address, ChecksAlike names (Becomes (Cell.rename names))
      (do
        let value ← Word.select condition (← whenTrue.read address) (← whenFalse.read address)
        return { address, value : Cell })
      (do
        let value ← Word.select (condition.rename names)
          (← (whenTrue.rename names).read (address.rename names))
          (← (whenFalse.rename names).read (address.rename names))
        return { address := address.rename names, value : Cell }) := by
    intro address
    apply (whenTrue.alike_read address).andThen
    intro left
    apply (whenFalse.alike_read address).andThen
    intro right
    apply (Word.alike_select condition left right).andThen
    intro value
    exact .pure rfl
  apply (ChecksAlike.mapM cell (jointAddresses whenTrue whenFalse)).andThen
  intro cells
  apply (Word.alike_select condition whenTrue.default whenFalse.default).andThen
  intro default
  apply ChecksAlike.pure
  simp [Becomes, rename]

end DenseMemory

/-! ## Array memory -/

namespace ArrayTerm

/-- The recorded array with other names for its nodes and wires. -/
def rename (names : Nat ↪ Nat) : ArrayTerm -> ArrayTerm
  | constant name value => constant (names name) (value.rename names)
  | store name older address value =>
      store (names name) (older.rename names) (address.rename names) (value.rename names)
  | choice name condition whenTrue whenFalse =>
      choice (names name) (condition.rename names) (whenTrue.rename names) (whenFalse.rename names)

theorem rename_injective (names : Nat ↪ Nat) : Function.Injective (rename names) := by
  intro first
  induction first with
  | constant name value =>
      intro second same
      cases second with
      | constant name' value' =>
          simp only [rename, constant.injEq, EmbeddingLike.apply_eq_iff_eq] at same
          rw [same.1, Word.rename_injective names same.2]
      | _ => cases same
  | store name older address value ih =>
      intro second same
      cases second with
      | store name' older' address' value' =>
          simp only [rename, store.injEq, EmbeddingLike.apply_eq_iff_eq] at same
          rw [same.1, ih same.2.1, Word.rename_injective names same.2.2.1,
            Word.rename_injective names same.2.2.2]
      | _ => cases same
  | choice name condition whenTrue whenFalse leftIh rightIh =>
      intro second same
      cases second with
      | choice name' condition' whenTrue' whenFalse' =>
          simp only [rename, choice.injEq, EmbeddingLike.apply_eq_iff_eq] at same
          rw [same.1, Bit.rename_injective names same.2.1, leftIh same.2.2.1, rightIh same.2.2.2]
      | _ => cases same

theorem alike_reset (default : Word) :
    BuildsAlike names (Becomes (rename names)) (reset default) (reset (default.rename names)) := by
  apply alike_freshName.andThen
  intro name
  exact .pure rfl

theorem alike_write (term : ArrayTerm) (address value : Word) :
    BuildsAlike names (Becomes (rename names)) (term.write address value)
      ((term.rename names).write (address.rename names) (value.rename names)) := by
  apply alike_freshName.andThen
  intro name
  exact .pure rfl

theorem alike_merge (condition : Bit) (whenTrue whenFalse : ArrayTerm) :
    BuildsAlike names (Becomes (rename names)) (merge condition whenTrue whenFalse)
      (merge (condition.rename names) (whenTrue.rename names) (whenFalse.rename names)) := by
  unfold merge
  simp only [(rename_injective names).eq_iff, Bit.known_rename]
  split
  · exact .pure rfl
  · cases condition.known with
    | some value => cases value <;> exact .pure rfl
    | none =>
        apply alike_freshName.andThen
        intro name
        exact .pure rfl

/-- Two readings remember corresponding words. -/
def RemembersAlike (names : Nat ↪ Nat) (found found' : Std.HashMap ArrayTerm Word) : Prop :=
  ∀ term : ArrayTerm, found'[term.rename names]? = found[term]?.map (Word.rename names)

/-- Two readings that start with corresponding memories come to corresponding words and leave
corresponding memories. -/
def ResolvesAlike (names : Nat ↪ Nat) (first second : Reading Word) : Prop :=
  ∀ found found', RemembersAlike names found found' ->
    ChecksAlike names (fun result result' => result'.1 = result.1.rename names ∧
      RemembersAlike names result.2 result'.2) (first.run found) (second.run found')

namespace ResolvesAlike

theorem pure (value : Word) :
    ResolvesAlike names (Pure.pure value) (Pure.pure (value.rename names)) :=
  fun _ _ remember => .pure ⟨rfl, remember⟩

theorem bind {first second : Reading Word} {next next' : Word -> Reading Word}
    (alike : ResolvesAlike names first second)
    (continued : ∀ value, ResolvesAlike names (next value) (next' (value.rename names))) :
    ResolvesAlike names (first >>= next) (second >>= next') := by
  intro found found' remember
  rw [StateT.run_bind, StateT.run_bind]
  apply (alike found found' remember).bind
  rintro ⟨value, later⟩ ⟨_, later'⟩ ⟨rfl, remembered⟩
  exact continued value later later' remembered

theorem lift {first second : Checked Word}
    (alike : ChecksAlike names (Becomes (Word.rename names)) first second) :
    ResolvesAlike names (liftM first) (liftM second) := by
  intro found found' remember
  exact alike.bind fun value other renamed => .pure ⟨renamed, remember⟩

theorem remember (term : ArrayTerm) {first second : Reading Word}
    (alike : ResolvesAlike names first second) :
    ResolvesAlike names (ArrayTerm.remember term first)
      (ArrayTerm.remember (term.rename names) second) := by
  intro found found' remember
  simp only [ArrayTerm.remember, StateT.run_bind, StateT.run_get, pure_bind, remember term]
  cases found[term]? with
  | some value => exact .pure ⟨rfl, remember⟩
  | none =>
      dsimp only [Option.map_none]
      rw [StateT.run_bind, StateT.run_bind]
      apply (alike found found' remember).bind
      rintro ⟨value, later⟩ ⟨_, later'⟩ ⟨rfl, remembered⟩
      refine .pure ⟨rfl, ?_⟩
      intro other
      simp only [Std.HashMap.getElem?_insert, (rename_injective names).beq_eq]
      split
      · rfl
      · exact remembered other

end ResolvesAlike

theorem alike_resolve (address : Word) (term : ArrayTerm) :
    ResolvesAlike names (resolve address term) (resolve (address.rename names) (term.rename names)) := by
  induction term with
  | constant name value => exact .remember _ (.pure value)
  | store name older index value ih =>
      apply ResolvesAlike.remember (store name older index value)
      rw [Word.identical_rename]
      cases index.identical address with
      | true => exact .pure value
      | false =>
          apply ih.bind
          intro shadowed
          rw [← liftM_bind, ← liftM_bind]
          apply ResolvesAlike.lift
          apply (address.alike_equals index).andThen
          intro hit
          exact Word.alike_select hit value shadowed
  | choice name condition whenTrue whenFalse leftIh rightIh =>
      apply ResolvesAlike.remember (choice name condition whenTrue whenFalse)
      apply leftIh.bind
      intro left
      apply rightIh.bind
      intro right
      exact .lift (Word.alike_select condition left right)

theorem alike_read (term : ArrayTerm) (address : Word) :
    ChecksAlike names (Becomes (Word.rename names)) (term.read address)
      ((term.rename names).read (address.rename names)) := by
  have nothing : RemembersAlike names ∅ ∅ := by
    intro other
    simp
  apply (alike_resolve address term ∅ ∅ nothing).bind
  rintro ⟨value, found⟩ ⟨_, found'⟩ ⟨rfl, _⟩
  exact .pure rfl

end ArrayTerm

/-! ## Memory -/

namespace Memory

/-- The memory with other names. -/
def rename (names : Nat ↪ Nat) : Memory -> Memory
  | dense memory => dense (memory.rename names)
  | array term => array (term.rename names)

@[simp] theorem strategy_rename (names : Nat ↪ Nat) (memory : Memory) :
    (memory.rename names).strategy = memory.strategy := by
  cases memory <;> rfl

theorem alike_reset (strategy : Strategy) (default : Word) :
    BuildsAlike names (Becomes (rename names)) (reset strategy default)
      (reset strategy (default.rename names)) := by
  cases strategy with
  | dense => exact .pure rfl
  | array =>
      apply (ArrayTerm.alike_reset default).andThen
      intro term
      exact .pure rfl

theorem alike_read (memory : Memory) (address : Word) :
    ChecksAlike names (Becomes (Word.rename names)) (memory.read address)
      ((memory.rename names).read (address.rename names)) := by
  cases memory with
  | dense memory => exact memory.alike_read address
  | array term => exact term.alike_read address

theorem alike_write (memory : Memory) (address value : Word) :
    BuildsAlike names (Becomes (rename names)) (memory.write address value)
      ((memory.rename names).write (address.rename names) (value.rename names)) := by
  cases memory with
  | dense memory => exact .pure (congrArg dense (memory.rename_write names address value).symm)
  | array term =>
      apply (term.alike_write address value).andThen
      intro written
      exact .pure rfl

theorem alike_merge (condition : Bit) (whenTrue whenFalse : Memory) :
    ChecksAlike names (Becomes (rename names)) (merge condition whenTrue whenFalse)
      (merge (condition.rename names) (whenTrue.rename names) (whenFalse.rename names)) := by
  cases whenTrue with
  | dense whenTrue =>
      cases whenFalse with
      | dense whenFalse =>
          apply (DenseMemory.alike_merge condition whenTrue whenFalse).andThen
          intro merged
          exact .pure rfl
      | array whenFalse => exact .throw _
  | array whenTrue =>
      cases whenFalse with
      | dense whenFalse => exact .throw _
      | array whenFalse =>
          apply (ChecksAlike.lift (ArrayTerm.alike_merge condition whenTrue whenFalse)).andThen
          intro merged
          exact .pure rfl

end Memory

/-! ## Machines -/

namespace Machine

/-- The machine with other names. -/
def rename (names : Nat ↪ Nat) (machine : Machine) : Machine where
  memory := machine.memory.rename names
  x := machine.x.rename names
  a := machine.a.rename names
  carry := machine.carry.rename names
  zero := machine.zero.rename names

theorem register_rename (names : Nat ↪ Nat) (machine : Machine) (register : Register) :
    (machine.rename names).register register = (machine.register register).rename names := by
  cases register <;> rfl

theorem flag_rename (names : Nat ↪ Nat) (machine : Machine) (flag : Flag) :
    (machine.rename names).flag flag = (machine.flag flag).rename names := by
  cases flag <;> rfl

theorem alike_cleared (strategy : Strategy) (fill : Word) :
    ChecksAlike names (Becomes (rename names)) (cleared strategy fill)
      (cleared strategy (fill.rename names)) := by
  unfold cleared requireWord
  rw [Word.width_rename]
  apply ChecksAlike.require_bind
  apply (ChecksAlike.lift (Memory.alike_reset strategy fill)).andThen
  intro memory
  apply ChecksAlike.pure
  simp [Becomes, rename, Bit.rename, Bit.zero]

theorem alike_withRegister (machine : Machine) (register : Register) (value : Word) :
    ChecksAlike names (Becomes (rename names)) (machine.withRegister register value)
      ((machine.rename names).withRegister register (value.rename names)) := by
  unfold withRegister requireRegister
  rw [Word.width_rename]
  apply ChecksAlike.require_bind
  cases register <;> exact .pure rfl

theorem alike_read (machine : Machine) (address : Word) :
    ChecksAlike names (Becomes (Word.rename names)) (machine.read address)
      ((machine.rename names).read (address.rename names)) := by
  unfold read requireAddress
  rw [Word.width_rename]
  apply ChecksAlike.require_bind
  exact machine.memory.alike_read address

theorem alike_write (machine : Machine) (address value : Word) :
    ChecksAlike names (Becomes (rename names)) (machine.write address value)
      ((machine.rename names).write (address.rename names) (value.rename names)) := by
  unfold write requireAddress requireWord
  rw [Word.width_rename, Word.width_rename]
  apply ChecksAlike.require_bind
  apply ChecksAlike.require_bind
  apply (ChecksAlike.lift (machine.memory.alike_write address value)).andThen
  intro memory
  exact .pure rfl

theorem alike_fillMemory (machine : Machine) (value : Word) :
    ChecksAlike names (Becomes (rename names)) (machine.fillMemory value)
      ((machine.rename names).fillMemory (value.rename names)) := by
  have strategy : (machine.rename names).memory.strategy = machine.memory.strategy :=
    machine.memory.strategy_rename names
  unfold fillMemory requireWord
  rw [Word.width_rename, strategy]
  apply ChecksAlike.require_bind
  apply (ChecksAlike.lift (Memory.alike_reset machine.memory.strategy value)).andThen
  intro memory
  exact .pure rfl

theorem alike_merge (condition : Bit) (whenTrue whenFalse : Machine) :
    ChecksAlike names (Becomes (rename names)) (merge condition whenTrue whenFalse)
      (merge (condition.rename names) (whenTrue.rename names) (whenFalse.rename names)) := by
  unfold merge
  rw [Bit.known_rename]
  cases condition.known with
  | some value => cases value <;> exact .pure rfl
  | none =>
      apply (Memory.alike_merge condition whenTrue.memory whenFalse.memory).andThen
      intro memory
      apply (Word.alike_select condition whenTrue.x whenFalse.x).andThen
      intro x
      apply (Word.alike_select condition whenTrue.a whenFalse.a).andThen
      intro a
      apply (ChecksAlike.lift (condition.alike_select whenTrue.carry whenFalse.carry)).andThen
      intro carry
      apply (ChecksAlike.lift (condition.alike_select whenTrue.zero whenFalse.zero)).andThen
      intro zero
      exact .pure rfl

end Machine

/-! ## Instructions -/

/-- The control flow with other names for the wires of a condition. -/
def Flow.rename (names : Nat ↪ Nat) : Flow -> Flow
  | next => next
  | branch condition destination => branch (condition.rename names) destination
  | halt => halt

namespace Instruction

/-- The instruction with other names for the wires of its operand. -/
def rename (names : Nat ↪ Nat) : Instruction -> Instruction
  | rotateMemory address => rotateMemory (address.rename names)
  | addWithCarry address => addWithCarry (address.rename names)
  | instruction => instruction

theorem alike_isZero (word : Word) :
    ChecksAlike names (Becomes (Bit.rename names)) (isZero word) (isZero (word.rename names)) := by
  have compared : ChecksAlike names (Becomes (Bit.rename names))
      (word.equals (.zero word.width))
      ((word.rename names).equals ((Word.zero word.width).rename names)) :=
    word.alike_equals (.zero word.width)
  rw [Word.rename_zero] at compared
  unfold isZero
  rw [Word.width_rename]
  exact compared

theorem alike_execute (instruction : Instruction) (machine : Machine) :
    ChecksAlike names (Becomes (Prod.map (Machine.rename names) (Flow.rename names)))
      (instruction.execute machine) ((instruction.rename names).execute (machine.rename names)) := by
  cases instruction with
  | load register value =>
      have loaded : ChecksAlike names (Becomes (Machine.rename names))
          (machine.withRegister register (.constant value.toNat wordBits))
          ((machine.rename names).withRegister register
            ((Word.constant value.toNat wordBits).rename names)) :=
        machine.alike_withRegister register _
      rw [Word.rename_constant] at loaded
      apply loaded.andThen
      intro machine
      exact .pure rfl
  | clearCarry => exact .pure rfl
  | rotateMemory address =>
      apply (machine.alike_read address).andThen
      intro value
      apply (value.alike_rotateRight machine.carry).andThen
      rintro ⟨rotated, carry⟩
      apply (machine.alike_write address rotated).andThen
      intro machine
      exact .pure rfl
  | rotateRegister register =>
      have rotates : ChecksAlike names (Becomes (Prod.map (Word.rename names) (Bit.rename names)))
          ((machine.register register).rotateRight machine.carry)
          (((machine.rename names).register register).rotateRight (machine.carry.rename names)) := by
        rw [machine.register_rename]
        exact Word.alike_rotateRight _ machine.carry
      apply rotates.andThen
      rintro ⟨rotated, carry⟩
      apply (machine.alike_withRegister register rotated).andThen
      intro machine
      exact .pure rfl
  | addWithCarry address =>
      apply (machine.alike_read address).andThen
      intro operand
      apply (machine.a.alike_addWithCarry operand machine.carry).andThen
      rintro ⟨sum, carry⟩
      apply (alike_isZero sum).andThen
      intro zero
      apply (machine.alike_withRegister .a sum).andThen
      intro machine
      exact .pure rfl
  | decrement register =>
      have subtracts : ChecksAlike names (Becomes (Word.rename names))
          ((machine.register register).sub (.constant 1 wordBits))
          (((machine.register register).rename names).sub
            ((Word.constant 1 wordBits).rename names)) :=
        Word.alike_sub _ _
      rw [Word.rename_constant, ← machine.register_rename] at subtracts
      apply subtracts.andThen
      intro difference
      apply (alike_isZero difference).andThen
      intro zero
      apply (machine.alike_withRegister register difference).andThen
      intro machine
      exact .pure rfl
  | branchIfClear flag target =>
      have negates : BuildsAlike names (Becomes (Bit.rename names)) (machine.flag flag).not
          ((machine.rename names).flag flag).not := by
        rw [machine.flag_rename]
        exact Bit.alike_not _
      apply (ChecksAlike.lift negates).andThen
      intro condition
      exact .pure rfl
  | halt => exact .pure rfl

end Instruction
end SymbolicMachine
