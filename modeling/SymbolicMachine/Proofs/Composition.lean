import SymbolicMachine.Proofs.Simplification
import SymbolicMachine.Word.Arithmetic

namespace SymbolicMachine

/-!
# What can be composed

All bits of a session come about from literals and variables by operations on bits and on
words.  What has been made may be used again, any number of times and in any place, so a bit is
composed if it is among the results of an operation whose operands are composed.  Nothing is
said about the session in which an operation takes place: it may be any, also one that has
handed out the same names before.  Gates that are placed by hand are not composed.

Negation and conjunction are all that operations are made of.  A property that literals have
and that these two keep is therefore kept by every operation, and what variables have as well
holds of everything that is composed.
-/

/-! ## Operations -/

/-- The bits that a connective connects. -/
def Connective.operands : Connective -> List Bit
  | not operand => [operand]
  | and left right | or left right | xor left right | equals left right => [left, right]
  | implies premise conclusion => [premise, conclusion]
  | select condition whenTrue whenFalse => [condition, whenTrue, whenFalse]

/-- An operation on bits or words with its operands. -/
inductive Operation where
  | connect (connective : Connective)
  | not (word : Word)
  | and (left right : Word)
  | or (left right : Word)
  | xor (left right : Word)
  | select (condition : Bit) (whenTrue whenFalse : Word)
  | addWithCarry (left right : Word) (carry : Bit)
  | add (left right : Word)
  | sub (left right : Word)
  | mul (left right : Word)
  | equals (left right : Word)
  | differs (left right : Word)
  | lessThan (left right : Word)
  | bit (word : Word) (index : Nat)
  | withBit (word : Word) (index : Nat) (replacement : Bit)
  | shiftLeft (word : Word) (amount : Nat)
  | shiftRight (word : Word) (amount : Nat)
  | zeroExtend (word : Word) (amount : Nat)
  | rotateRight (word : Word) (carry : Bit)

namespace Operation

/-- All bits that go into an operation. -/
def operands : Operation -> List Bit
  | connect connective => connective.operands
  | not word | bit word _ | shiftLeft word _ | shiftRight word _ | zeroExtend word _ => word.bits
  | and left right | or left right | xor left right | add left right | sub left right
  | mul left right | equals left right | differs left right | lessThan left right =>
      left.bits ++ right.bits
  | select condition whenTrue whenFalse => condition :: (whenTrue.bits ++ whenFalse.bits)
  | addWithCarry left right carry => carry :: (left.bits ++ right.bits)
  | withBit word _ replacement => replacement :: word.bits
  | rotateRight word carry => carry :: word.bits

/-- All bits that come out of an operation. -/
def perform : Operation -> Checked (List Bit)
  | connect connective => do return [← connective.build]
  | not word => do return (← word.not).bits
  | and left right => do return (← left.and right).bits
  | or left right => do return (← left.or right).bits
  | xor left right => do return (← left.xor right).bits
  | select condition whenTrue whenFalse => do
      return (← Word.select condition whenTrue whenFalse).bits
  | addWithCarry left right carry => do
      let (sum, last) ← left.addWithCarry right carry
      return last :: sum.bits
  | add left right => do return (← left.add right).bits
  | sub left right => do return (← left.sub right).bits
  | mul left right => do return (← left.mul right).bits
  | equals left right => do return [← left.equals right]
  | differs left right => do return [← left.differs right]
  | lessThan left right => do return [← left.lessThan right]
  | bit word index => do return [← word.bit index]
  | withBit word index replacement => do return (← word.withBit index replacement).bits
  | shiftLeft word amount => return (word.shiftLeft amount).bits
  | shiftRight word amount => return (word.shiftRight amount).bits
  | zeroExtend word amount => return (word.zeroExtend amount).bits
  | rotateRight word carry => do
      let (rotated, lowest) ← word.rotateRight carry
      return lowest :: rotated.bits

end Operation

/-- A bit that operations make of literals and of variables that are allowed. -/
inductive Bit.Composed (allowed : Nat -> Prop) : Bit -> Prop
  | literal (value : Bool) : Composed allowed (.literal value)
  | var {id : Nat} : allowed id -> Composed allowed (.var id)
  | result {bit : Bit} {results : List Bit} (operation : Operation) :
      (∀ operand ∈ operation.operands, Composed allowed operand) ->
      CanReturn operation.perform results -> bit ∈ results -> Composed allowed bit

/-! ## Closed properties -/

/-- A property that literals have and that negation and conjunction keep. -/
structure Bit.Closed (property : Bit -> Prop) : Prop where
  literal : ∀ value, property (.literal value)
  not : ∀ {bit}, property bit -> Gives bit.not property
  and : ∀ {left right}, property left -> property right -> Gives (left.and right) property

/-- All bits of a word have a property. -/
def Word.Each (property : Bit -> Prop) (word : Word) : Prop :=
  ∀ bit ∈ word.bits, property bit

namespace Bit.Closed

variable {property : Bit -> Prop} {left right condition : Bit}

theorem or (closed : Closed property) (leftHolds : property left) (rightHolds : property right) :
    Gives (left.or right) property := by
  refine (closed.not leftHolds).bind fun noLeft noLeftHolds => ?_
  refine (closed.not rightHolds).bind fun noRight noRightHolds => ?_
  refine (closed.and noLeftHolds noRightHolds).bind fun neither neitherHolds => ?_
  exact closed.not neitherHolds

theorem xor (closed : Closed property) (leftHolds : property left) (rightHolds : property right) :
    Gives (left.xor right) property := by
  refine (closed.not rightHolds).bind fun noRight noRightHolds => ?_
  refine (closed.and leftHolds noRightHolds).bind fun onlyLeft onlyLeftHolds => ?_
  refine (closed.not leftHolds).bind fun noLeft noLeftHolds => ?_
  refine (closed.and noLeftHolds rightHolds).bind fun onlyRight onlyRightHolds => ?_
  exact closed.or onlyLeftHolds onlyRightHolds

theorem equals (closed : Closed property) (leftHolds : property left)
    (rightHolds : property right) : Gives (left.equals right) property := by
  unfold Bit.equals
  split
  · exact .pure (closed.literal true)
  · refine (closed.and leftHolds rightHolds).bind fun both bothHolds => ?_
    refine (closed.not leftHolds).bind fun noLeft noLeftHolds => ?_
    refine (closed.not rightHolds).bind fun noRight noRightHolds => ?_
    refine (closed.and noLeftHolds noRightHolds).bind fun neither neitherHolds => ?_
    exact closed.or bothHolds neitherHolds

theorem select (closed : Closed property) (conditionHolds : property condition)
    (leftHolds : property left) (rightHolds : property right) :
    Gives (condition.select left right) property := by
  unfold Bit.select
  split
  · exact .pure leftHolds
  · split
    · exact .pure leftHolds
    · exact .pure rightHolds
    · refine (closed.and conditionHolds leftHolds).bind fun taken takenHolds => ?_
      refine (closed.not conditionHolds).bind fun otherwise otherwiseHolds => ?_
      refine (closed.and otherwiseHolds rightHolds).bind fun notTaken notTakenHolds => ?_
      exact closed.or takenHolds notTakenHolds

theorem build (closed : Closed property) (connective : Connective)
    (operandsHold : ∀ operand ∈ connective.operands, property operand) :
    Gives connective.build property := by
  cases connective <;>
    simp only [Connective.operands, List.forall_mem_cons, List.not_mem_nil, false_implies,
      implies_true, and_true] at operandsHold
  case not => exact closed.not operandsHold
  case and => exact closed.and operandsHold.1 operandsHold.2
  case or => exact closed.or operandsHold.1 operandsHold.2
  case xor => exact closed.xor operandsHold.1 operandsHold.2
  case equals => exact closed.equals operandsHold.1 operandsHold.2
  case implies =>
    refine (closed.not operandsHold.1).bind fun excused excusedHolds => ?_
    exact closed.or excusedHolds operandsHold.2
  case select => exact closed.select operandsHold.1 operandsHold.2.1 operandsHold.2.2

/-! ## Words -/

variable {first second word : Word} {carry selector : Bit} {pairs : List (Bit × Bit)}

theorem replicate_zero (closed : Closed property) (count : Nat) :
    ∀ bit ∈ List.replicate count Bit.zero, property bit := by
  intro bit member
  rw [List.eq_of_mem_replicate member]
  exact closed.literal false

theorem shiftLeft (closed : Closed property) (each : word.Each property) (amount : Nat) :
    (word.shiftLeft amount).Each property := by
  unfold Word.Each Word.shiftLeft
  rw [List.forall_mem_append]
  exact ⟨closed.replicate_zero _, fun bit member => each bit (List.mem_of_mem_take member)⟩

theorem shiftRight (closed : Closed property) (each : word.Each property) (amount : Nat) :
    (word.shiftRight amount).Each property := by
  unfold Word.Each Word.shiftRight
  rw [List.forall_mem_append]
  exact ⟨fun bit member => each bit (List.mem_of_mem_drop member), closed.replicate_zero _⟩

theorem zeroExtend (closed : Closed property) (each : word.Each property) (amount : Nat) :
    (word.zeroExtend amount).Each property :=
  List.forall_mem_append.mpr ⟨each, closed.replicate_zero _⟩

theorem wordNot (closed : Closed property) (each : word.Each property) :
    Gives word.not fun result => result.Each property := by
  refine (Gives.forall_mapM fun bit member => closed.not (each bit member)).bind ?_
  exact fun bits allHold => .pure allHold

/-- What is paired comes from both lists. -/
theorem forall_mem_zip {xs ys : List Bit} (left : ∀ x ∈ xs, property x)
    (right : ∀ y ∈ ys, property y) : ∀ pair ∈ xs.zip ys, property pair.1 ∧ property pair.2 := by
  intro pair member
  have members := List.of_mem_zip member
  exact ⟨left pair.1 members.1, right pair.2 members.2⟩

theorem paired (firstEach : first.Each property) (secondEach : second.Each property) :
    Returns (Word.paired first second) fun pairs =>
      ∀ pair ∈ pairs, property pair.1 ∧ property pair.2 := by
  apply Returns.require_bind
  intro _
  exact .pure (forall_mem_zip firstEach secondEach)

theorem bitwise {connective : Bit -> Bit -> Build Bit}
    (one : ∀ x y, property x -> property y -> Gives (connective x y) property)
    (firstEach : first.Each property) (secondEach : second.Each property) :
    Returns (Word.bitwise connective first second) fun result => result.Each property := by
  apply (paired firstEach secondEach).bind
  intro pairs pairsHold
  have combined : Gives (Word.combine connective pairs) fun bits => ∀ bit ∈ bits, property bit :=
    Gives.forall_mapM fun pair member =>
      one pair.1 pair.2 (pairsHold pair member).1 (pairsHold pair member).2
  apply (Succeeds.lift combined).returns.bind
  intro bits allHold
  exact .pure allHold

theorem rippleAdd (closed : Closed property) (carryHolds : property carry)
    (pairsHold : ∀ pair ∈ pairs, property pair.1 ∧ property pair.2) :
    Gives (Word.rippleAdd carry pairs) fun result =>
      (∀ bit ∈ result.1, property bit) ∧ property result.2 := by
  induction pairs generalizing carry with
  | nil => exact .pure ⟨List.forall_mem_nil _, carryHolds⟩
  | cons pair rest ih =>
      rw [List.forall_mem_cons] at pairsHold
      rcases pairsHold with ⟨⟨xHolds, yHolds⟩, restHold⟩
      refine (closed.xor xHolds yHolds).bind fun halfSum halfSumHolds => ?_
      refine (closed.xor halfSumHolds carryHolds).bind fun sum sumHolds => ?_
      refine (closed.and xHolds yHolds).bind fun generated generatedHolds => ?_
      refine (closed.xor xHolds yHolds).bind fun propagates propagatesHolds => ?_
      refine (closed.and carryHolds propagatesHolds).bind fun propagated propagatedHolds => ?_
      refine (closed.or generatedHolds propagatedHolds).bind fun next nextHolds => ?_
      refine (ih nextHolds restHold).bind fun result higher => ?_
      exact .pure ⟨List.forall_mem_cons.mpr ⟨sumHolds, higher.1⟩, higher.2⟩

theorem addWithCarry (closed : Closed property) (firstEach : first.Each property)
    (secondEach : second.Each property) (carryHolds : property carry) :
    Returns (first.addWithCarry second carry) fun result =>
      result.1.Each property ∧ property result.2 := by
  apply (paired firstEach secondEach).bind
  intro pairs pairsHold
  apply (Succeeds.lift (closed.rippleAdd carryHolds pairsHold)).returns.bind
  intro result holds
  exact .pure holds

theorem add (closed : Closed property) (firstEach : first.Each property)
    (secondEach : second.Each property) :
    Returns (first.add second) fun result => result.Each property := by
  apply (closed.addWithCarry firstEach secondEach (closed.literal false)).bind
  intro result holds
  exact .pure holds.1

theorem sub (closed : Closed property) (firstEach : first.Each property)
    (secondEach : second.Each property) :
    Returns (first.sub second) fun result => result.Each property := by
  apply (Succeeds.lift (closed.wordNot secondEach)).returns.bind
  intro inverted invertedEach
  apply (closed.addWithCarry firstEach invertedEach (closed.literal true)).bind
  intro result holds
  exact .pure holds.1

theorem addPartialProduct (closed : Closed property) (multiplicandEach : first.Each property)
    (productEach : second.Each property) (selectorHolds : property selector) (place : Nat) :
    Gives (Word.addPartialProduct first second selector place) fun result =>
      result.Each property := by
  have shifted := closed.shiftLeft multiplicandEach place
  have terms : Gives ((first.shiftLeft place).bits.mapM fun bit => selector.select bit .zero)
      fun terms => ∀ term ∈ terms, property term :=
    Gives.forall_mapM fun bit member =>
      closed.select selectorHolds (shifted bit member) (closed.literal false)
  refine terms.bind fun terms termsHold => ?_
  have pairsHold := forall_mem_zip productEach termsHold
  refine (closed.rippleAdd (closed.literal false) pairsHold).bind fun result holds => ?_
  exact .pure holds.1

theorem addPartialProducts (closed : Closed property) (multiplicandEach : first.Each property)
    {selectors : List Bit} (selectorsHold : ∀ bit ∈ selectors, property bit) (place : Nat)
    (productEach : second.Each property) :
    Gives (Word.addPartialProducts first second place selectors) fun result =>
      result.Each property := by
  induction selectors generalizing second place with
  | nil => exact .pure productEach
  | cons selector rest ih =>
      rw [List.forall_mem_cons] at selectorsHold
      have added := closed.addPartialProduct multiplicandEach productEach selectorsHold.1 place
      exact added.bind fun next nextEach => ih selectorsHold.2 (place + 1) nextEach

theorem mul (closed : Closed property) (firstEach : first.Each property)
    (secondEach : second.Each property) :
    Returns (first.mul second) fun result => result.Each property := by
  apply Returns.require_bind
  intro _
  have products := closed.addPartialProducts firstEach secondEach 0
    (closed.replicate_zero first.width)
  exact (Succeeds.lift products).returns

theorem wordEquals (closed : Closed property) (firstEach : first.Each property)
    (secondEach : second.Each property) : Returns (first.equals second) property := by
  apply (paired firstEach secondEach).bind
  intro pairs pairsHold
  have compared : Gives (Word.allEqual pairs) property := by
    apply Gives.foldlM (closed.literal true)
    intro pair member equal equalHolds
    have holds := pairsHold pair member
    exact (closed.equals holds.1 holds.2).bind fun same sameHolds => closed.and equalHolds sameHolds
  exact (Succeeds.lift compared).returns

theorem differs (closed : Closed property) (firstEach : first.Each property)
    (secondEach : second.Each property) : Returns (first.differs second) property := by
  apply (closed.wordEquals firstEach secondEach).bind
  intro equal holds
  exact (Succeeds.lift (closed.not holds)).returns

theorem lessThan (closed : Closed property) (firstEach : first.Each property)
    (secondEach : second.Each property) : Returns (first.lessThan second) property := by
  apply (paired firstEach secondEach).bind
  intro pairs pairsHold
  have compared : Gives (Word.rippleLess pairs) property := by
    apply Gives.foldlM (closed.literal false)
    intro pair member less lessHolds
    have holds := pairsHold pair member
    refine (closed.equals holds.1 holds.2).bind fun same sameHolds => ?_
    refine (closed.not sameHolds).bind fun differs differsHolds => ?_
    refine (closed.not holds.1).bind fun noLeft noLeftHolds => ?_
    refine (closed.and noLeftHolds holds.2).bind fun smaller smallerHolds => ?_
    exact closed.select differsHolds smallerHolds lessHolds
  exact (Succeeds.lift compared).returns

theorem bit (each : word.Each property) (index : Nat) : Returns (word.bit index) property := by
  unfold Word.bit
  cases found : word.bits[index]? with
  | none => exact .throw
  | some bit => exact .pure (each bit (List.mem_of_getElem? found))

theorem withBit (each : word.Each property) (index : Nat) {bit : Bit} (holds : property bit) :
    Returns (word.withBit index bit) fun result => result.Each property := by
  apply Returns.require_bind
  intro _
  apply Returns.pure
  intro other member
  rcases List.mem_or_eq_of_mem_set member with before | rfl
  · exact each other before
  · exact holds

theorem rotateRight (each : word.Each property) (carryHolds : property carry) :
    Returns (word.rotateRight carry) fun result =>
      result.1.Each property ∧ property result.2 := by
  rcases word with ⟨bits⟩
  cases bits with
  | nil => exact .throw
  | cons lowest rest =>
      have parts := List.forall_mem_cons.mp each
      refine .pure ⟨List.forall_mem_append.mpr ⟨parts.2, ?_⟩, parts.1⟩
      exact List.forall_mem_cons.mpr ⟨carryHolds, fun bit member => nomatch member⟩

/-! ## All operations -/

theorem returns_bit {construction : Checked Bit} (returned : Returns construction property) :
    Returns (do return [← construction]) fun results => ∀ result ∈ results, property result := by
  apply returned.bind
  intro bit holds
  exact .pure (List.forall_mem_singleton.mpr holds)

theorem returns_bits {construction : Checked Word}
    (returned : Returns construction fun word => word.Each property) :
    Returns (do return (← construction).bits) fun results =>
      ∀ result ∈ results, property result := by
  apply returned.bind
  intro word each
  exact .pure each

/-- What operands have in common, results have as well. -/
theorem perform (closed : Closed property) (operation : Operation)
    (operandsHold : ∀ operand ∈ operation.operands, property operand) :
    Returns operation.perform fun results => ∀ result ∈ results, property result := by
  cases operation <;>
    simp only [Operation.operands, List.forall_mem_cons, List.forall_mem_append] at operandsHold
  case connect connective =>
    exact returns_bit (Succeeds.lift (closed.build connective operandsHold)).returns
  case not word => exact returns_bits (Succeeds.lift (closed.wordNot operandsHold)).returns
  case and left right =>
    exact returns_bits (bitwise (fun _ _ => closed.and) operandsHold.1 operandsHold.2)
  case or left right =>
    exact returns_bits (bitwise (fun _ _ => closed.or) operandsHold.1 operandsHold.2)
  case xor left right =>
    exact returns_bits (bitwise (fun _ _ => closed.xor) operandsHold.1 operandsHold.2)
  case select condition whenTrue whenFalse =>
    exact returns_bits
      (bitwise (fun _ _ => closed.select operandsHold.1) operandsHold.2.1 operandsHold.2.2)
  case addWithCarry left right carry =>
    apply (closed.addWithCarry operandsHold.2.1 operandsHold.2.2 operandsHold.1).bind
    intro result holds
    exact .pure (List.forall_mem_cons.mpr ⟨holds.2, holds.1⟩)
  case add left right => exact returns_bits (closed.add operandsHold.1 operandsHold.2)
  case sub left right => exact returns_bits (closed.sub operandsHold.1 operandsHold.2)
  case mul left right => exact returns_bits (closed.mul operandsHold.1 operandsHold.2)
  case equals left right => exact returns_bit (closed.wordEquals operandsHold.1 operandsHold.2)
  case differs left right => exact returns_bit (closed.differs operandsHold.1 operandsHold.2)
  case lessThan left right => exact returns_bit (closed.lessThan operandsHold.1 operandsHold.2)
  case bit word index => exact returns_bit (Closed.bit operandsHold index)
  case withBit word index replacement =>
    exact returns_bits (withBit operandsHold.2 index operandsHold.1)
  case shiftLeft word amount => exact .pure (closed.shiftLeft operandsHold amount)
  case shiftRight word amount => exact .pure (closed.shiftRight operandsHold amount)
  case zeroExtend word amount => exact .pure (closed.zeroExtend operandsHold amount)
  case rotateRight word carry =>
    apply (rotateRight operandsHold.2 operandsHold.1).bind
    intro result holds
    exact .pure (List.forall_mem_cons.mpr ⟨holds.2, holds.1⟩)

end Bit.Closed

namespace Bit.Composed

variable {allowed : Nat -> Prop} {property : Bit -> Prop} {bit : Bit}

/-- A closed property of the allowed variables holds of everything composed of them. -/
theorem holds (closed : Closed property) (inputs : ∀ id, allowed id -> property (.var id))
    (composed : Composed allowed bit) : property bit := by
  induction composed with
  | literal value => exact closed.literal value
  | var member => exact inputs _ member
  | result operation _ returned member ih =>
      exact (closed.perform operation ih).of_canReturn returned _ member

/-- Connectives of what is composed are composed. -/
theorem build (connective : Connective) (session : Session)
    (operands : ∀ operand ∈ connective.operands, Composed allowed operand) :
    Composed allowed (connective.build.run session).1 :=
  .result (.connect connective) operands ⟨session, rfl⟩ (List.mem_singleton.mpr rfl)

end Bit.Composed
end SymbolicMachine
