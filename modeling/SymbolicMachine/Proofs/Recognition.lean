import Mathlib.Data.Sym.Sym2
import SymbolicMachine.Proofs.Interpretation
import SymbolicMachine.Word.Lemmas

namespace SymbolicMachine

/-!
# Recognition is a sound equivalence

Two circuits are recognised as one by their outermost gates: by the wires that these read, in
either order, or by the variables if they read nothing else.  A chain of recognised circuits may
use a different clause at each link.  That its ends are recognised as well is seen from what
the check looks at: a circuit has an *outline*, and recognition is equality of outlines.

Circuits of one outline are read alike by every evaluator, whatever it leaves open and whatever
it was asked before, although they may differ as trees.

Wires are compared together with what drives them.  Where names stand for fixed contents the
names alone decide, so that nothing below the outermost gate has to be looked at.
-/

namespace Bit

/-! ## Outlines -/

theorem variableId_eq_some_iff {bit : Bit} {id : Nat} :
    bit.variableId = some id ↔ bit = .var id := by
  cases bit <;> simp [variableId]

theorem sameVariable_iff {left right : Bit} :
    left.sameVariable right = true ↔
      ∃ id, left.variableId = some id ∧ right.variableId = some id := by
  constructor
  · intro same
    cases left <;> cases right <;> simp_all [sameVariable, variableId]
  · rintro ⟨id, leftIs, rightIs⟩
    rw [variableId_eq_some_iff] at leftIs rightIs
    subst leftIs rightIs
    exact beq_self_eq_true id

/-- The variables of two bits, if both are plain variables. -/
def variablePair? (left right : Bit) : Option (Sym2 Nat) :=
  match left.variableId, right.variableId with
  | some i, some j => some s(i, j)
  | _, _ => none

theorem variablePair?_eq_some_iff {left right : Bit} {ids : Sym2 Nat} :
    variablePair? left right = some ids ↔
      ∃ i j, left.variableId = some i ∧ right.variableId = some j ∧ s(i, j) = ids := by
  unfold variablePair?
  cases left.variableId <;> cases right.variableId <;> simp

theorem variablePair?_comm (left right : Bit) :
    variablePair? left right = variablePair? right left := by
  unfold variablePair?
  cases left.variableId <;> cases right.variableId <;> simp [Sym2.eq_swap]

/-- The variables that a gate reads, or its wires if it reads anything else. -/
def shown {α β : Type} (variables? : Option α) (wires : β) : α ⊕ β :=
  variables?.elim (.inr wires) .inl

/-- Gates show the same if they read the same wires, provided that wires determine variables,
or if both read variables only and these agree. -/
theorem shown_eq_iff {α β : Type} {first second : Option α} {wires others : β}
    (determined : wires = others -> first = second) :
    shown first wires = shown second others ↔
      wires = others ∨ ∃ ids, first = some ids ∧ second = some ids := by
  constructor
  · intro same
    cases first <;> cases second <;> simp_all [shown]
  · rintro (same | ⟨ids, rfl, rfl⟩)
    · rw [determined same, same]
    · rfl

/-- What recognition looks at of a circuit. -/
inductive Outline where
  | literal (value : Bool)
  | var (id : Nat)
  | notOf (operand : Nat ⊕ Wire)
  | andOf (operands : Sym2 Nat ⊕ Sym2 Wire)

/-- The outline of a circuit.  The operands of a conjunction have no order. -/
def outline : Bit -> Outline
  | literal value => .literal value
  | var id => .var id
  | notGate wire input => .notOf (shown input.variableId ⟨wire, input⟩)
  | andGate leftWire left rightWire right =>
      .andOf (shown (variablePair? left right) s(⟨leftWire, left⟩, ⟨rightWire, right⟩))

theorem identical_notGate_iff {w u : Nat} {x y : Bit} :
    (notGate w x).identical (notGate u y) = true ↔
      (⟨w, x⟩ : Wire) = ⟨u, y⟩ ∨ ∃ id, x.variableId = some id ∧ y.variableId = some id := by
  rw [identical, Bool.or_eq_true, decide_eq_true_eq, sameVariable_iff]

theorem identical_andGate_iff {w w' u u' : Nat} {x x' y y' : Bit} :
    (andGate w x w' x').identical (andGate u y u' y') = true ↔
      (s(⟨w, x⟩, ⟨w', x'⟩) : Sym2 Wire) = s(⟨u, y⟩, ⟨u', y'⟩) ∨
      ∃ ids, variablePair? x x' = some ids ∧ variablePair? y y' = some ids := by
  have byVariables : (∃ ids, variablePair? x x' = some ids ∧ variablePair? y y' = some ids) ↔
      (x.sameVariable y = true ∧ x'.sameVariable y' = true) ∨
        (x.sameVariable y' = true ∧ x'.sameVariable y = true) := by
    simp only [variablePair?_eq_some_iff, sameVariable_iff]
    constructor
    · rintro ⟨ids, ⟨i, j, left, right, rfl⟩, ⟨k, l, left', right', same⟩⟩
      rcases Sym2.eq_iff.mp same with ⟨rfl, rfl⟩ | ⟨rfl, rfl⟩
      · exact .inl ⟨⟨k, left, left'⟩, ⟨l, right, right'⟩⟩
      · exact .inr ⟨⟨l, left, right'⟩, ⟨k, right, left'⟩⟩
    · rintro (⟨⟨i, left, left'⟩, ⟨j, right, right'⟩⟩ | ⟨⟨i, left, right'⟩, ⟨j, right, left'⟩⟩)
      · exact ⟨s(i, j), ⟨i, j, left, right, rfl⟩, ⟨i, j, left', right', rfl⟩⟩
      · exact ⟨s(i, j), ⟨i, j, left, right, rfl⟩, ⟨j, i, left', right', Sym2.eq_swap⟩⟩
  rw [byVariables, Sym2.eq_iff]
  simp only [identical, Bool.or_eq_true, Bool.and_eq_true, decide_eq_true_eq, or_assoc]

/-- Recognition is equality of outlines. -/
theorem identical_iff {left right : Bit} :
    left.identical right = true ↔ left.outline = right.outline := by
  cases left <;> cases right
  case literal.literal x y => simp [identical, outline]
  case var.var i j => simp [identical, outline]
  case notGate.notGate w x u y =>
    have determined : (⟨w, x⟩ : Wire) = ⟨u, y⟩ -> x.variableId = y.variableId := by
      rintro ⟨⟩
      rfl
    rw [identical_notGate_iff, outline, outline, Outline.notOf.injEq, shown_eq_iff determined]
  case andGate.andGate w x w' x' u y u' y' =>
    have determined : (s(⟨w, x⟩, ⟨w', x'⟩) : Sym2 Wire) = s(⟨u, y⟩, ⟨u', y'⟩) ->
        variablePair? x x' = variablePair? y y' := by
      intro same
      rcases Sym2.eq_iff.mp same with ⟨⟨⟩, ⟨⟩⟩ | ⟨⟨⟩, ⟨⟩⟩
      · rfl
      · exact variablePair?_comm x x'
    rw [identical_andGate_iff, outline, outline, Outline.andOf.injEq, shown_eq_iff determined]
  all_goals simp [identical, outline]

theorem identical_equivalence :
    Equivalence fun left right : Bit => left.identical right = true := by
  simp only [identical_iff]
  exact ⟨fun _ => rfl, Eq.symm, Eq.trans⟩

/-! ## Names of wires -/

/-- Recognition that compares wires by name and does not look at what drives them. -/
def identicalByName : Bit -> Bit -> Bool
  | literal x, literal y => x == y
  | var i, var j => i == j
  | notGate w x, notGate u y => w == u || sameVariable x y
  | andGate w x w' x', andGate u y u' y' =>
      (w == u && w' == u') || (w == u' && w' == u) ||
      (sameVariable x y && sameVariable x' y') || (sameVariable x y' && sameVariable x' y)
  | _, _ => false

/-- Where names stand for fixed contents, wires of one name are one wire. -/
theorem decide_wire_eq {contents : Nat -> Bit} {w u : Nat} {x y : Bit}
    (left : contents w = x) (right : contents u = y) :
    decide (Wire.mk w x = Wire.mk u y) = (w == u) := by
  subst left right
  rw [Bool.eq_iff_iff, decide_eq_true_eq, beq_iff_eq, Wire.mk.injEq]
  constructor
  · exact And.left
  · rintro rfl
    exact ⟨rfl, rfl⟩

theorem identicalByName_eq {contents : Nat -> Bit} {left right : Bit}
    (leftWired : left.WiredBy contents) (rightWired : right.WiredBy contents) :
    left.identicalByName right = left.identical right := by
  cases left <;> cases right <;> rw [identicalByName, identical]
  case notGate.notGate => rw [decide_wire_eq leftWired.1 rightWired.1]
  case andGate.andGate =>
    rw [decide_wire_eq leftWired.1.1 rightWired.1.1, decide_wire_eq leftWired.1.2 rightWired.1.2,
      decide_wire_eq leftWired.1.1 rightWired.1.2, decide_wire_eq leftWired.1.2 rightWired.1.1]
  all_goals simp

end Bit

/-! ## Words -/

namespace Word

/-- The outlines of the bits of a word. -/
def outline (word : Word) : List Bit.Outline :=
  word.bits.map Bit.outline

/-- Recognition of words is equality of outlines as well. -/
theorem identical_iff {left right : Word} :
    left.identical right = true ↔ left.outline = right.outline := by
  have pairwise : ∀ xs ys : List Bit,
      (xs.length = ys.length ∧ ((xs.zip ys).all fun pair => pair.1.identical pair.2) = true) ↔
        xs.map Bit.outline = ys.map Bit.outline := by
    intro xs
    induction xs with
    | nil => intro ys; cases ys <;> simp
    | cons x rest ih =>
        intro ys
        cases ys with
        | nil => simp
        | cons y others =>
            rw [List.map_cons, List.map_cons, List.cons.injEq, ← Bit.identical_iff, ← ih others]
            simp [and_left_comm]
  rw [identical, Bool.and_eq_true, beq_iff_eq]
  exact pairwise left.bits right.bits

theorem identical_eq_false_iff {left right : Word} :
    left.identical right = false ↔ left.outline ≠ right.outline := by
  rw [← Bool.not_eq_true, identical_iff]

theorem identical_equivalence :
    Equivalence fun left right : Word => left.identical right = true := by
  simp only [identical_iff]
  exact ⟨fun _ => rfl, Eq.symm, Eq.trans⟩

/-- A reading that takes recognised bits alike takes recognised words alike. -/
theorem map_eq_of_identical {α : Type} {reading : Bit -> α}
    (alike : ∀ {x y : Bit}, x.identical y = true -> reading x = reading y) {left right : Word}
    (same : left.identical right = true) : left.bits.map reading = right.bits.map reading := by
  rw [identical_iff, outline, outline, ← List.forall₂_eq_eq_eq, List.forall₂_map_left_iff,
    List.forall₂_map_right_iff] at same
  rw [← List.forall₂_eq_eq_eq, List.forall₂_map_left_iff, List.forall₂_map_right_iff]
  apply same.imp
  intro x y sameOutline
  exact alike (Bit.identical_iff.mpr sameOutline)

/-- Recognition of words that compares wires by name. -/
def identicalByName (left right : Word) : Bool :=
  left.width == right.width &&
    (left.bits.zip right.bits).all fun pair => pair.1.identicalByName pair.2

theorem identicalByName_eq {contents : Nat -> Bit} {left right : Word}
    (leftWired : left.WiredBy contents) (rightWired : right.WiredBy contents) :
    left.identicalByName right = left.identical right := by
  have bits : ((left.bits.zip right.bits).all fun pair => pair.1.identicalByName pair.2) =
      (left.bits.zip right.bits).all fun pair => pair.1.identical pair.2 := by
    rw [Bool.eq_iff_iff, List.all_eq_true, List.all_eq_true]
    apply forall₂_congr
    intro pair member
    have members := List.of_mem_zip member
    rw [Bit.identicalByName_eq (leftWired _ members.1) (rightWired _ members.2)]
  rw [identicalByName, bits]
  rfl

theorem valueBy?_eq_of_map_eq {value? : Bit -> Option Bool} {left right : Word}
    (same : left.bits.map value? = right.bits.map value?) :
    left.valueBy? value? = right.valueBy? value? := by
  have traversed : ∀ bits : List Bit, bits.mapM value? = (bits.map value?).mapM id := by
    intro bits
    rw [List.mapM_map, Function.id_comp]
  have widths : left.width = right.width := by
    have lengths := congrArg List.length same
    rwa [List.length_map, List.length_map] at lengths
  rw [valueBy?, valueBy?, widths, traversed, traversed, same]

end Word

/-! ## Soundness -/

open Evaluator in
/-- What makes a recognition sound.  It is an equivalence, and what it recognises as one is read
alike, as a whole and bit by bit. -/
structure SoundRecognition {α : Type} (same : α -> α -> Bool) (signal : α -> Signal) : Prop where
  equivalence : Equivalence fun left right => same left right = true
  /-- An evaluator answers alike for both, whatever its assignment leaves open and whatever
  it was asked before. -/
  answered : ∀ {left right : α}, same left right = true ->
    ∀ (assignment : Assignment) (questions : List Signal),
      let asked := ((questions.mapM ask).run (.new assignment)).2
      ((ask (signal left)).run asked).1 = ((ask (signal right)).run asked).1
  /-- Each bit has the value of its counterpart or, like this, none. -/
  evaluated : ∀ {left right : α}, same left right = true -> ∀ assignment : Assignment,
    (signal left).toWord.bits.map assignment.evaluate =
      (signal right).toWord.bits.map assignment.evaluate
  /-- Each bit has the value of its counterpart under every valuation of all variables. -/
  valued : ∀ {left right : α}, same left right = true -> ∀ valuation : Nat -> Bool,
    (signal left).toWord.bits.map (Bit.eval valuation) =
      (signal right).toWord.bits.map (Bit.eval valuation)

/-- Whatever an evaluator was asked before, it answers with the reading. -/
theorem Evaluator.ask_eq_reading (assignment : Assignment) (questions : List Signal)
    (question : Signal) :
    ((ask question).run ((questions.mapM ask).run (.new assignment)).2).1 =
      reading assignment question :=
  have asked := answers_asks assignment questions _ (faithful_new Wire.source assignment)
  (answers_ask assignment question _ asked.2).1

theorem Bit.identical_sound : SoundRecognition Bit.identical Signal.bit where
  equivalence := Bit.identical_equivalence
  answered := by
    intro left right same assignment questions
    simp only [Evaluator.ask_eq_reading, Evaluator.reading, Bit.eval?_eq_of_identical same]
  evaluated := by
    intro left right same assignment
    simp only [Signal.toWord, Word.ofBit, List.map_cons, List.map_nil, Assignment.evaluate_eq,
      Bit.eval?_eq_of_identical same]
  valued := by
    intro left right same valuation
    simp only [Signal.toWord, Word.ofBit, List.map_cons, List.map_nil,
      Bit.eval_eq_of_identical same]

theorem Word.identical_sound : SoundRecognition Word.identical Signal.word where
  equivalence := Word.identical_equivalence
  answered := by
    intro left right same assignment questions
    have bits : left.bits.map (Bit.eval? assignment) = right.bits.map (Bit.eval? assignment) :=
      map_eq_of_identical Bit.eval?_eq_of_identical same
    simp only [Evaluator.ask_eq_reading, Evaluator.reading, eval?, valueBy?_eq_of_map_eq bits]
  evaluated := by
    intro left right same assignment
    apply map_eq_of_identical _ same
    intro x y sameBit
    rw [Assignment.evaluate_eq, Assignment.evaluate_eq, Bit.eval?_eq_of_identical sameBit]
  valued := by
    intro left right same valuation
    exact map_eq_of_identical Bit.eval_eq_of_identical same

/-- Recognition is a sound equivalence of bits, and of words of any width.  Over circuits whose
wires carry what their names stand for it needs no more than the names.  It does not require
equal trees. -/
theorem recognition_sound :
    SoundRecognition Bit.identical Signal.bit ∧ SoundRecognition Word.identical Signal.word ∧
    (∀ contents : Nat -> Bit,
      (∀ left right : Bit, left.WiredBy contents -> right.WiredBy contents ->
        left.identicalByName right = left.identical right) ∧
      ∀ left right : Word, left.WiredBy contents -> right.WiredBy contents ->
        left.identicalByName right = left.identical right) ∧
    ∃ left right : Bit, left.identical right = true ∧ left.sameShape right = false := by
  refine ⟨Bit.identical_sound, Word.identical_sound, ?_, ?_⟩
  · intro contents
    exact ⟨fun _ _ => Bit.identicalByName_eq, fun _ _ => Word.identicalByName_eq⟩
  · exact ⟨.andGate 0 (.var 0) 1 (.var 1), .andGate 1 (.var 1) 0 (.var 0), rfl, rfl⟩

/-- Three conjunctions in a row, recognised first by crossed wires and then by variables.  The ends
are recognised as well, differ as trees, and are false under an assignment that leaves one operand
open, after a question about it.  So are words of them that are too wide to be read as numbers. -/
theorem recognition_sound_examples :
    let contents : Nat -> Bit := fun name => .var (name % 2)
    let first : Bit := .andGate 0 (.var 0) 1 (.var 1)
    let second : Bit := .andGate 1 (.var 1) 0 (.var 0)
    let third : Bit := .andGate 3 (.var 1) 2 (.var 0)
    let assignment : Assignment := .ofList [(1, false)]
    let asked := (([.bit (.var 0)].mapM Evaluator.ask).run (.new assignment)).2
    first.identical second = true ∧ second.identical third = true ∧
    first.identical third = true ∧ first.sameShape third = false ∧
    ((Evaluator.ask (.bit first)).run asked).1 = .bit (some false) ∧
    ((Evaluator.ask (.bit third)).run asked).1 = .bit (some false) ∧
    (first.WiredBy contents ∧ third.WiredBy contents ∧ first.identicalByName third = true) ∧
    (Word.mk (List.replicate 65 first)).identical ⟨List.replicate 65 third⟩ = true ∧
    (List.replicate 65 first).map assignment.evaluate =
      (List.replicate 65 third).map assignment.evaluate := by
  intro contents first second third assignment asked
  rcases recognition_sound with ⟨bits, words, names, _⟩
  have crossed : first.identical second = true := by decide
  have byVariables : second.identical third = true := by decide
  have ends := bits.equivalence.trans crossed byVariables
  have firstAnswer : ((Evaluator.ask (.bit first)).run asked).1 = .bit (some false) :=
    Evaluator.ask_eq_reading assignment [.bit (.var 0)] (.bit first)
  have answers := bits.answered ends assignment [.bit (.var 0)]
  have firstWired : first.WiredBy contents := ⟨⟨rfl, rfl⟩, trivial, trivial⟩
  have thirdWired : third.WiredBy contents := ⟨⟨rfl, rfl⟩, trivial, trivial⟩
  have byName := ((names contents).1 first third firstWired thirdWired).trans ends
  have wide : (Word.mk (List.replicate 65 first)).identical ⟨List.replicate 65 third⟩ = true := by
    decide +kernel
  exact ⟨crossed, byVariables, ends, rfl, firstAnswer, answers.symm.trans firstAnswer,
    ⟨firstWired, thirdWired, byName⟩, wide, words.evaluated wide assignment⟩

end SymbolicMachine
