import Mathlib.Logic.Function.Basic
import SymbolicMachine.Memory.Basic
import SymbolicMachine.Memory.Lemmas
import SymbolicMachine.Proofs.Arithmetic

namespace SymbolicMachine

/-!
# Memories as maps

Under an interpretation a memory holds a map from numbers to numbers.  A reset
holds a constant map, a write updates the map at one number, and a merge holds one
of two maps.  Reading an address gives a word that denotes the entry of the map at
the number that the address denotes.

Which numbers the stored addresses denote is a matter of the interpretation, so
addresses may coincide in any way.  Neither strategy is told about it: a dense memory
compares addresses when it is read and forgets cells only where it recognises one
address in another, and an array term descends through everything that was recorded.
Both nevertheless hold the same map after the same operations.
-/

namespace Interpretation

variable (I : Interpretation) (addressWidth valueWidth : Nat)

/-- Cells from newest to oldest, over a default, hold a map. -/
inductive HoldsCells (default : Word) : List Cell -> (Nat -> Nat) -> Prop
  | nil {d : Nat} : I.Denotes valueWidth default d -> HoldsCells default [] fun _ => d
  | cons {address value : Word} {older : List Cell} {p v : Nat} {map : Nat -> Nat} :
      I.Denotes addressWidth address p -> I.Denotes valueWidth value v ->
      HoldsCells default older map ->
      HoldsCells default (⟨address, value⟩ :: older) (Function.update map p v)

/-- A recorded array holds a map. -/
inductive HoldsTerm : ArrayTerm -> (Nat -> Nat) -> Prop
  | constant {name : Nat} {value : Word} {v : Nat} :
      I.Denotes valueWidth value v -> HoldsTerm (.constant name value) fun _ => v
  | store {name : Nat} {older : ArrayTerm} {address value : Word} {p v : Nat}
      {map : Nat -> Nat} :
      HoldsTerm older map -> I.Denotes addressWidth address p -> I.Denotes valueWidth value v ->
      HoldsTerm (.store name older address value) (Function.update map p v)
  | choice {name : Nat} {condition : Bit} {whenTrue whenFalse : ArrayTerm} {c : Bool}
      {left right : Nat -> Nat} :
      I.Reads condition c -> HoldsTerm whenTrue left -> HoldsTerm whenFalse right ->
      HoldsTerm (.choice name condition whenTrue whenFalse) fun p => if c then left p else right p

/-- A memory holds a map, whatever its shape. -/
def Holds : Memory -> (Nat -> Nat) -> Prop
  | .dense memory => I.HoldsCells addressWidth valueWidth memory.default memory.cells
  | .array term => I.HoldsTerm addressWidth valueWidth term

variable {I addressWidth valueWidth}

/-! ## Reading cells -/

/-- A read that may hit a newer entry chooses between the entry and what it shadows. -/
theorem succeeds_override {address index value : Word} {p q v : Nat} {map : Nat -> Nat}
    {shadowed : Word} (addressDenotes : I.Denotes addressWidth address p)
    (indexDenotes : I.Denotes addressWidth index q) (valueDenotes : I.Denotes valueWidth value v)
    (shadowedDenotes : I.Denotes valueWidth shadowed (map p)) :
    Succeeds (do Word.select (← address.equals index) value shadowed) fun result =>
      I.Denotes valueWidth result (Function.update map q v p) := by
  refine (addressDenotes.equals indexDenotes).bind fun hit hitReads => ?_
  refine (valueDenotes.select hitReads shadowedDenotes).mono fun result resultDenotes => ?_
  rw [Function.update_apply]
  simpa using resultDenotes

theorem update_of_identical {address index : Word} {p q v : Nat} {map : Nat -> Nat}
    (same : index.identical address = true) (addressDenotes : I.Denotes addressWidth address p)
    (indexDenotes : I.Denotes addressWidth index q) : Function.update map q v p = v := by
  rw [indexDenotes.eq_of_identical same addressDenotes, Function.update_self]

theorem HoldsCells.read {default address : Word} {cells : List Cell} {map : Nat -> Nat} {p : Nat}
    (holds : I.HoldsCells addressWidth valueWidth default cells map)
    (addressDenotes : I.Denotes addressWidth address p) :
    Succeeds (DenseMemory.readCells default address cells) fun value =>
      I.Denotes valueWidth value (map p) := by
  induction holds with
  | nil defaultDenotes => exact .pure defaultDenotes
  | cons indexDenotes valueDenotes older ih =>
      unfold DenseMemory.readCells
      split
      · rename_i same
        rw [update_of_identical same addressDenotes indexDenotes]
        exact .pure valueDenotes
      · refine ih.bind fun shadowed shadowedDenotes => ?_
        exact succeeds_override addressDenotes indexDenotes valueDenotes shadowedDenotes

/-! ## Writing cells -/

/-- Dropping the cells of recognisably one address changes the map at most there. -/
theorem HoldsCells.filter {default address : Word} {cells : List Cell} {map : Nat -> Nat} {p : Nat}
    (holds : I.HoldsCells addressWidth valueWidth default cells map)
    (addressDenotes : I.Denotes addressWidth address p) :
    ∃ kept, I.HoldsCells addressWidth valueWidth default
        (cells.filter fun cell => !cell.address.identical address) kept ∧
      ∀ other, other ≠ p -> kept other = map other := by
  induction holds with
  | nil defaultDenotes => exact ⟨_, .nil defaultDenotes, fun _ _ => rfl⟩
  | @cons index value older q v map indexDenotes valueDenotes olderHolds ih =>
      rcases ih with ⟨kept, keptHolds, agrees⟩
      by_cases same : index.identical address = true
      · have samePlace : q = p := indexDenotes.eq_of_identical same addressDenotes
        refine ⟨kept, by simpa [same] using keptHolds, fun other different => ?_⟩
        rw [agrees other different, Function.update_of_ne (samePlace ▸ different)]
      · refine ⟨Function.update kept q v, ?_, fun other different => ?_⟩
        · simpa [same] using HoldsCells.cons indexDenotes valueDenotes keptHolds
        · rw [Function.update_apply, Function.update_apply, agrees other different]

theorem HoldsCells.write {memory : DenseMemory} {address value : Word} {p v : Nat}
    {map : Nat -> Nat}
    (holds : I.HoldsCells addressWidth valueWidth memory.default memory.cells map)
    (addressDenotes : I.Denotes addressWidth address p) (valueDenotes : I.Denotes valueWidth value v) :
    I.HoldsCells addressWidth valueWidth (memory.write address value).default
      (memory.write address value).cells (Function.update map p v) := by
  rcases holds.filter addressDenotes with ⟨kept, keptHolds, agrees⟩
  have sameMap : Function.update kept p v = Function.update map p v := by
    funext other
    by_cases here : other = p
    · rw [here, Function.update_self, Function.update_self]
    · rw [Function.update_of_ne here, Function.update_of_ne here, agrees other here]
  rw [← sameMap]
  exact .cons addressDenotes valueDenotes keptHolds

/-! ## Merging cells -/

theorem HoldsCells.default_denotes {default : Word} {cells : List Cell} {map : Nat -> Nat}
    (holds : I.HoldsCells addressWidth valueWidth default cells map) :
    ∃ d, I.Denotes valueWidth default d ∧
      ∀ p, (∀ cell ∈ cells, ¬ I.Denotes addressWidth cell.address p) -> map p = d := by
  induction holds with
  | @nil d defaultDenotes => exact ⟨d, defaultDenotes, fun _ _ => rfl⟩
  | @cons index value older q v map indexDenotes valueDenotes olderHolds ih =>
      rcases ih with ⟨d, defaultDenotes, untouched⟩
      refine ⟨d, defaultDenotes, fun p elsewhere => ?_⟩
      have different : p ≠ q := by
        intro same
        exact elsewhere _ List.mem_cons_self (same ▸ indexDenotes)
      rw [Function.update_of_ne different]
      exact untouched p fun cell member => elsewhere cell (List.mem_cons_of_mem _ member)

theorem HoldsCells.address_denotes {default : Word} {cells : List Cell} {map : Nat -> Nat}
    (holds : I.HoldsCells addressWidth valueWidth default cells map) :
    ∀ cell ∈ cells, ∃ p, I.Denotes addressWidth cell.address p := by
  induction holds with
  | nil defaultDenotes => exact fun cell member => nomatch member
  | @cons index value older q v map indexDenotes valueDenotes olderHolds ih =>
      intro cell member
      rcases List.mem_cons.mp member with here | later
      · exact ⟨q, here ▸ indexDenotes⟩
      · exact ih cell later

/-- Cells that all agree with one map hold it in any order, provided that the map is
the default wherever no cell is. -/
theorem holdsCells_of_agreeing {default : Word} {cells : List Cell} {map : Nat -> Nat} {d : Nat}
    (defaultDenotes : I.Denotes valueWidth default d)
    (agreeing : ∀ cell ∈ cells, ∃ p, I.Denotes addressWidth cell.address p ∧
      I.Denotes valueWidth cell.value (map p))
    (untouched : ∀ p, (∀ cell ∈ cells, ¬ I.Denotes addressWidth cell.address p) -> map p = d) :
    I.HoldsCells addressWidth valueWidth default cells map := by
  classical
  -- Cutting the map down to the places of the cells makes the induction go through.
  have cut : I.HoldsCells addressWidth valueWidth default cells fun p =>
      if ∃ cell ∈ cells, I.Denotes addressWidth cell.address p then map p else d := by
    clear untouched
    induction cells with
    | nil => simpa using HoldsCells.nil defaultDenotes
    | cons cell older ih =>
        rcases agreeing cell List.mem_cons_self with ⟨p, addressDenotes, valueDenotes⟩
        have olderHolds := ih fun other member => agreeing other (List.mem_cons_of_mem _ member)
        have holds := HoldsCells.cons addressDenotes valueDenotes olderHolds
        convert holds using 1
        funext q
        by_cases here : q = p
        · rw [here, Function.update_self, if_pos ⟨cell, List.mem_cons_self, addressDenotes⟩]
        · have elsewhere : ¬ I.Denotes addressWidth cell.address q := by
            intro denotes
            exact here (denotes.unique addressDenotes)
          rw [Function.update_of_ne here]
          simp [elsewhere]
  have sameMap : (fun p =>
      if ∃ cell ∈ cells, I.Denotes addressWidth cell.address p then map p else d) = map := by
    funext p
    split
    · rfl
    · rename_i nowhere
      refine (untouched p fun cell member denotes => ?_).symm
      exact nowhere ⟨cell, member, denotes⟩
  rwa [sameMap] at cut

theorem mem_touched {memory : DenseMemory} {address : Word} :
    address ∈ memory.touched ↔ ∃ cell ∈ memory.cells, cell.address = address := by
  simp [DenseMemory.touched]

theorem jointAddress_denotes {whenTrue whenFalse : DenseMemory} {left right : Nat -> Nat}
    (leftHolds : I.HoldsCells addressWidth valueWidth whenTrue.default whenTrue.cells left)
    (rightHolds : I.HoldsCells addressWidth valueWidth whenFalse.default whenFalse.cells right)
    {address : Word} (member : address ∈ DenseMemory.jointAddresses whenTrue whenFalse) :
    ∃ p, I.Denotes addressWidth address p := by
  rcases DenseMemory.mem_touched_of_mem_jointAddresses member with inLeft | inRight
  · rcases mem_touched.mp inLeft with ⟨cell, cellMember, rfl⟩
    exact leftHolds.address_denotes cell cellMember
  · rcases mem_touched.mp inRight with ⟨cell, cellMember, rfl⟩
    exact rightHolds.address_denotes cell cellMember

/-- Every address that either memory has written is denoted by one of the joint ones:
an address is passed over only if a recognisably identical one is there. -/
theorem joint_denotes {whenTrue whenFalse : DenseMemory} {left right : Nat -> Nat} {p : Nat}
    (leftHolds : I.HoldsCells addressWidth valueWidth whenTrue.default whenTrue.cells left)
    (rightHolds : I.HoldsCells addressWidth valueWidth whenFalse.default whenFalse.cells right)
    {cell : Cell} (written : cell ∈ whenTrue.cells ∨ cell ∈ whenFalse.cells)
    (denotes : I.Denotes addressWidth cell.address p) :
    ∃ address ∈ DenseMemory.jointAddresses whenTrue whenFalse,
      I.Denotes addressWidth address p := by
  rcases written with inLeft | inRight
  · have member := mem_touched.mpr ⟨cell, inLeft, rfl⟩
    exact ⟨cell.address, DenseMemory.mem_jointAddresses_of_mem_touched member, denotes⟩
  · have member := mem_touched.mpr ⟨cell, inRight, rfl⟩
    rcases DenseMemory.exists_identical_jointAddresses member with ⟨known, knownMember, same⟩
    rcases jointAddress_denotes leftHolds rightHolds knownMember with ⟨q, knownDenotes⟩
    refine ⟨known, knownMember, ?_⟩
    rw [← knownDenotes.eq_of_identical same denotes]
    exact knownDenotes

theorem HoldsCells.merge {condition : Bit} {c : Bool} {whenTrue whenFalse : DenseMemory}
    {left right : Nat -> Nat} (conditionReads : I.Reads condition c)
    (leftHolds : I.HoldsCells addressWidth valueWidth whenTrue.default whenTrue.cells left)
    (rightHolds : I.HoldsCells addressWidth valueWidth whenFalse.default whenFalse.cells right) :
    Succeeds (DenseMemory.merge condition whenTrue whenFalse) fun merged =>
      I.HoldsCells addressWidth valueWidth merged.default merged.cells
        fun p => if c then left p else right p := by
  rcases leftHolds.default_denotes with ⟨leftDefault, leftDefaultDenotes, leftUntouched⟩
  rcases rightHolds.default_denotes with ⟨rightDefault, rightDefaultDenotes, rightUntouched⟩
  have oneCell : ∀ address ∈ DenseMemory.jointAddresses whenTrue whenFalse,
      Succeeds (do
        let value ← Word.select condition (← whenTrue.read address) (← whenFalse.read address)
        return { address, value : Cell }) fun cell =>
          cell.address = address ∧ ∃ p, I.Denotes addressWidth address p ∧
            I.Denotes valueWidth cell.value (if c then left p else right p) := by
    intro address member
    rcases jointAddress_denotes leftHolds rightHolds member with ⟨p, denotes⟩
    refine (leftHolds.read denotes).bind fun leftValue leftDenotes => ?_
    refine (rightHolds.read denotes).bind fun rightValue rightDenotes => ?_
    refine (leftDenotes.select conditionReads rightDenotes).bind fun value valueDenotes => ?_
    exact .pure ⟨rfl, p, denotes, valueDenotes⟩
  refine (Succeeds.mapM oneCell).bind fun cells cellsAgree => ?_
  refine (leftDefaultDenotes.select conditionReads rightDefaultDenotes).bind
    fun default defaultDenotes => .pure ?_
  refine holdsCells_of_agreeing defaultDenotes ?_ ?_
  · intro cell member
    have inOrder := List.mem_reverse.mp member
    rcases exists_related cellsAgree.flip inOrder with ⟨address, _, same, p, denotes, agrees⟩
    exact ⟨p, same ▸ denotes, agrees⟩
  · intro p elsewhere
    have nowhere : ∀ cell, cell ∈ whenTrue.cells ∨ cell ∈ whenFalse.cells ->
        ¬ I.Denotes addressWidth cell.address p := by
      intro cell written denotes
      rcases joint_denotes leftHolds rightHolds written denotes with ⟨address, member, addressDenotes⟩
      rcases exists_related cellsAgree member with ⟨merged, mergedMember, same, _⟩
      exact elsewhere merged (List.mem_reverse.mpr mergedMember) (same ▸ addressDenotes)
    rw [leftUntouched p fun cell member => nowhere cell (.inl member),
      rightUntouched p fun cell member => nowhere cell (.inr member)]

/-! ## Array terms -/

theorem HoldsTerm.unique {term : ArrayTerm} {first second : Nat -> Nat}
    (firstHolds : I.HoldsTerm addressWidth valueWidth term first)
    (secondHolds : I.HoldsTerm addressWidth valueWidth term second) : first = second := by
  induction firstHolds generalizing second with
  | constant valueDenotes =>
      cases secondHolds with
      | constant otherDenotes => rw [valueDenotes.unique otherDenotes]
  | store olderHolds addressDenotes valueDenotes ih =>
      cases secondHolds with
      | store otherOlder otherAddress otherValue =>
          rw [ih otherOlder, addressDenotes.unique otherAddress, valueDenotes.unique otherValue]
  | choice conditionReads leftHolds rightHolds leftIh rightIh =>
      cases secondHolds with
      | choice otherCondition otherLeft otherRight =>
          rw [conditionReads.unique otherCondition, leftIh otherLeft, rightIh otherRight]

/-- Every word that was remembered for a term denotes the entry of the map that the
term holds. -/
def Remembers (I : Interpretation) (addressWidth valueWidth p : Nat)
    (found : Std.HashMap ArrayTerm Word) : Prop :=
  ∀ (term : ArrayTerm) (value : Word), found[term]? = some value ->
    ∀ map, I.HoldsTerm addressWidth valueWidth term map -> I.Denotes valueWidth value (map p)

/-- A reading of a number from a term denotes the entry there, and remembers only such. -/
def Resolves (I : Interpretation) (addressWidth valueWidth p : Nat)
    (reading : ArrayTerm.Reading Word) (number : Nat) : Prop :=
  ∀ found, I.Remembers addressWidth valueWidth p found ->
    Succeeds (reading.run found) fun result =>
      I.Denotes valueWidth result.1 number ∧ I.Remembers addressWidth valueWidth p result.2

theorem resolves_pure {p : Nat} {value : Word} {number : Nat}
    (denotes : I.Denotes valueWidth value number) :
    I.Resolves addressWidth valueWidth p (pure value) number :=
  fun _ remembers => .pure ⟨denotes, remembers⟩

theorem resolves_bind {p first second : Nat} {reading : ArrayTerm.Reading Word}
    {next : Word -> ArrayTerm.Reading Word}
    (resolves : I.Resolves addressWidth valueWidth p reading first)
    (continued : ∀ value, I.Denotes valueWidth value first ->
      I.Resolves addressWidth valueWidth p (next value) second) :
    I.Resolves addressWidth valueWidth p (reading >>= next) second := by
  intro found remembers
  rw [StateT.run_bind]
  refine (resolves found remembers).bind fun result outcome => ?_
  exact continued result.1 outcome.1 result.2 outcome.2

theorem resolves_lift {p number : Nat} {construction : Checked Word}
    (succeeds : Succeeds construction fun value => I.Denotes valueWidth value number) :
    I.Resolves addressWidth valueWidth p (liftM construction) number := by
  intro found remembers
  exact succeeds.bind fun value denotes => .pure ⟨denotes, remembers⟩

theorem resolves_remember {p : Nat} {term : ArrayTerm} {map : Nat -> Nat}
    {reading : ArrayTerm.Reading Word} (holds : I.HoldsTerm addressWidth valueWidth term map)
    (resolves : I.Resolves addressWidth valueWidth p reading (map p)) :
    I.Resolves addressWidth valueWidth p (ArrayTerm.remember term reading) (map p) := by
  intro found remembers
  simp only [ArrayTerm.remember, StateT.run_bind, StateT.run_get, pure_bind]
  cases known : found[term]? with
  | some value => exact .pure ⟨remembers term value known map holds, remembers⟩
  | none =>
      rw [StateT.run_bind]
      refine (resolves found remembers).bind fun result outcome => ?_
      refine .pure ⟨outcome.1, ?_⟩
      intro other value recorded otherMap otherHolds
      dsimp only at recorded
      rw [Std.HashMap.getElem?_insert] at recorded
      split at recorded
      · rename_i same
        rw [← eq_of_beq same] at otherHolds
        rw [otherHolds.unique holds, ← Option.some.inj recorded]
        exact outcome.1
      · exact outcome.2 other value recorded otherMap otherHolds

theorem HoldsTerm.resolve {term : ArrayTerm} {address : Word} {map : Nat -> Nat} {p : Nat}
    (holds : I.HoldsTerm addressWidth valueWidth term map)
    (addressDenotes : I.Denotes addressWidth address p) :
    I.Resolves addressWidth valueWidth p (term.resolve address) (map p) := by
  induction holds with
  | constant valueDenotes =>
      exact resolves_remember (.constant valueDenotes) (resolves_pure valueDenotes)
  | store olderHolds indexDenotes valueDenotes ih =>
      refine resolves_remember (.store olderHolds indexDenotes valueDenotes) ?_
      split
      · rename_i same
        rw [update_of_identical same addressDenotes indexDenotes]
        exact resolves_pure valueDenotes
      · refine resolves_bind ih fun shadowed shadowedDenotes => ?_
        rw [← liftM_bind]
        exact resolves_lift
          (succeeds_override addressDenotes indexDenotes valueDenotes shadowedDenotes)
  | choice conditionReads leftHolds rightHolds leftIh rightIh =>
      refine resolves_remember (.choice conditionReads leftHolds rightHolds) ?_
      refine resolves_bind leftIh fun left leftDenotes => ?_
      refine resolves_bind rightIh fun right rightDenotes => ?_
      exact resolves_lift (leftDenotes.select conditionReads rightDenotes)

theorem HoldsTerm.read {term : ArrayTerm} {address : Word} {map : Nat -> Nat} {p : Nat}
    (holds : I.HoldsTerm addressWidth valueWidth term map)
    (addressDenotes : I.Denotes addressWidth address p) :
    Succeeds (term.read address) fun value => I.Denotes valueWidth value (map p) := by
  have nothing : I.Remembers addressWidth valueWidth p ∅ := by
    intro other value recorded
    simp at recorded
  exact (holds.resolve addressDenotes ∅ nothing).bind fun result outcome => .pure outcome.1

theorem HoldsTerm.merge {condition : Bit} {c : Bool} {whenTrue whenFalse : ArrayTerm}
    {left right : Nat -> Nat} (conditionReads : I.Reads condition c)
    (leftHolds : I.HoldsTerm addressWidth valueWidth whenTrue left)
    (rightHolds : I.HoldsTerm addressWidth valueWidth whenFalse right) :
    Gives (ArrayTerm.merge condition whenTrue whenFalse) fun merged =>
      I.HoldsTerm addressWidth valueWidth merged fun p => if c then left p else right p := by
  unfold ArrayTerm.merge
  split
  · rename_i same
    subst same
    rw [rightHolds.unique leftHolds]
    simp only [ite_self]
    exact .pure leftHolds
  · cases known : condition.known with
    | none => exact fun _ => .choice conditionReads leftHolds rightHolds
    | some value =>
        rw [conditionReads.eq_of_known known]
        cases value with
        | true => exact .pure leftHolds
        | false => exact .pure rightHolds

/-! ## Memories of either shape -/

variable (addressWidth) in
theorem holds_reset {default : Word} {d : Nat} (strategy : Strategy)
    (defaultDenotes : I.Denotes valueWidth default d) :
    Gives (Memory.reset strategy default) fun memory =>
      memory.strategy = strategy ∧ I.Holds addressWidth valueWidth memory fun _ => d := by
  cases strategy with
  | dense => exact .pure ⟨rfl, .nil defaultDenotes⟩
  | array => exact fun _ => ⟨rfl, .constant defaultDenotes⟩

theorem Holds.write {memory : Memory} {address value : Word} {p v : Nat} {map : Nat -> Nat}
    (holds : I.Holds addressWidth valueWidth memory map)
    (addressDenotes : I.Denotes addressWidth address p) (valueDenotes : I.Denotes valueWidth value v) :
    Gives (memory.write address value) fun written =>
      written.strategy = memory.strategy ∧
      I.Holds addressWidth valueWidth written (Function.update map p v) := by
  cases memory with
  | dense memory => exact .pure ⟨rfl, HoldsCells.write holds addressDenotes valueDenotes⟩
  | array term => exact fun _ => ⟨rfl, .store holds addressDenotes valueDenotes⟩

theorem Holds.merge {condition : Bit} {c : Bool} {whenTrue whenFalse : Memory}
    {left right : Nat -> Nat} (conditionReads : I.Reads condition c)
    (sameStrategy : whenTrue.strategy = whenFalse.strategy)
    (leftHolds : I.Holds addressWidth valueWidth whenTrue left)
    (rightHolds : I.Holds addressWidth valueWidth whenFalse right) :
    Succeeds (Memory.merge condition whenTrue whenFalse) fun merged =>
      merged.strategy = whenTrue.strategy ∧
      I.Holds addressWidth valueWidth merged fun p => if c then left p else right p := by
  cases whenTrue with
  | dense whenTrue =>
      cases whenFalse with
      | dense whenFalse =>
          refine (HoldsCells.merge conditionReads leftHolds rightHolds).bind fun merged holds => ?_
          exact .pure ⟨rfl, holds⟩
      | array whenFalse => cases sameStrategy
  | array whenTrue =>
      cases whenFalse with
      | dense whenFalse => cases sameStrategy
      | array whenFalse =>
          refine (Succeeds.lift (HoldsTerm.merge conditionReads leftHolds rightHolds)).bind
            fun merged holds => ?_
          exact .pure ⟨rfl, holds⟩

theorem Holds.read {memory : Memory} {address : Word} {p : Nat} {map : Nat -> Nat}
    (holds : I.Holds addressWidth valueWidth memory map)
    (addressDenotes : I.Denotes addressWidth address p) :
    Succeeds (memory.read address) fun value => I.Denotes valueWidth value (map p) := by
  cases memory with
  | dense memory => exact HoldsCells.read holds addressDenotes
  | array term => exact HoldsTerm.read holds addressDenotes

end Interpretation
end SymbolicMachine
