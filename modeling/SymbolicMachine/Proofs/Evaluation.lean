import SymbolicMachine.Signal
import SymbolicMachine.Traversal
import Std.Data.HashMap.Lemmas

namespace SymbolicMachine

/-!
# Evaluation under partial assignments

An evaluator answers from what it has recorded about wires, so its answer could
depend on its history.  It does not: an evaluator whose records are the readings
of their wires answers with the reading of the circuit as a tree and keeps this
property.  So whatever bits and words it is asked for, one after the other, each answer
is the one that an evaluator without records would give.  Records are kept under keys of
wires, and what matters is that a key stands for one content: a wire with what drives it
always does, and its name alone does where names stand for fixed contents.

The reading itself is tied to variables in both directions.  A value that is
found is the value under every valuation that extends the assignment, and a value
is found whenever all variables that occur have one.
-/

variable {assignment : Assignment}

/-! ## Variables -/

/-- The variables that occur in a circuit, with repetitions. -/
def Bit.support : Bit -> List Nat
  | .literal _ => []
  | .var id => [id]
  | .notGate _ input => input.support
  | .andGate _ left _ right => left.support ++ right.support

def Word.support (word : Word) : List Nat :=
  word.bits.flatMap Bit.support

namespace Assignment

/-- Every one of the variables has a value. -/
def Covers (assignment : Assignment) (ids : List Nat) : Prop :=
  ∀ id ∈ ids, (assignment.get? id).isSome

instance (assignment : Assignment) (ids : List Nat) : Decidable (assignment.Covers ids) :=
  inferInstanceAs (Decidable (∀ id ∈ ids, (assignment.get? id).isSome))

theorem covers_append {first second : List Nat} :
    assignment.Covers (first ++ second) ↔
      assignment.Covers first ∧ assignment.Covers second := by
  simp only [Covers, List.mem_append, or_imp, forall_and]

theorem covers_flatMap {α : Type} {parts : List α} {support : α -> List Nat} :
    assignment.Covers (parts.flatMap support) ↔
      ∀ part ∈ parts, assignment.Covers (support part) := by
  simp only [Covers, List.mem_flatMap]
  constructor
  · intro covers part member id occurs
    exact covers id ⟨part, member, occurs⟩
  · rintro covers id ⟨part, member, occurs⟩
    exact covers part member id occurs

/-- A valuation agrees with every value that is assigned. -/
def Extends (assignment : Assignment) (valuation : Nat -> Bool) : Prop :=
  ∀ id value, assignment.get? id = some value -> valuation id = value

/-- The valuation that makes unassigned variables false. -/
def valuation (assignment : Assignment) (id : Nat) : Bool :=
  (assignment.get? id).getD false

theorem extends_valuation (assignment : Assignment) :
    assignment.Extends assignment.valuation := by
  intro id value assigned
  rw [Assignment.valuation, assigned, Option.getD_some]

end Assignment

/-! ## The reading of a circuit -/

namespace Bit

theorem conjoin?_eq_some_true {left right : Option Bool}
    (holds : conjoin? left right = some true) : left = some true ∧ right = some true := by
  rcases left with _ | _ | _ <;> rcases right with _ | _ | _ <;> simp_all [conjoin?]

theorem conjoin?_eq_some_false {left right : Option Bool}
    (fails : conjoin? left right = some false) : left = some false ∨ right = some false := by
  rcases left with _ | _ | _ <;> rcases right with _ | _ | _ <;> simp_all [conjoin?]

@[simp] theorem conjoin?_some (left right : Bool) :
    conjoin? (some left) (some right) = some (left && right) := by
  cases left <;> cases right <;> rfl

/-- A value that is found is the value under every extension. -/
theorem eval_of_eval? {valuation : Nat -> Bool} (extension : assignment.Extends valuation)
    {bit : Bit} {value : Bool} (found : bit.eval? assignment = some value) : bit.eval valuation = value := by
  induction bit generalizing value with
  | literal known => exact Option.some.inj found
  | var id => exact extension id value found
  | notGate wire input ih =>
      rcases Option.map_eq_some_iff.mp found with ⟨inner, innerFound, flipped⟩
      rw [Bit.eval, ih innerFound, flipped]
  | andGate leftWire left rightWire right leftIh rightIh =>
      rw [Bit.eval]
      cases value with
      | true =>
          have both := conjoin?_eq_some_true found
          rw [leftIh both.1, rightIh both.2, Bool.and_self]
      | false =>
          rcases conjoin?_eq_some_false found with leftFalse | rightFalse
          · rw [leftIh leftFalse, Bool.false_and]
          · rw [rightIh rightFalse, Bool.and_false]

/-- A value is found as soon as every variable that occurs has one. -/
theorem eval?_of_covers {bit : Bit} (covers : assignment.Covers bit.support) :
    bit.eval? assignment = some (bit.eval assignment.valuation) := by
  induction bit with
  | literal value => rfl
  | var id =>
      have assigned := covers id (List.mem_singleton.mpr rfl)
      rcases Option.isSome_iff_exists.mp assigned with ⟨value, found⟩
      rw [Bit.eval?, Bit.eval, Assignment.valuation, found, Option.getD_some]
  | notGate wire input ih =>
      rw [Bit.eval?, ih covers]
      rfl
  | andGate leftWire left rightWire right leftIh rightIh =>
      have parts := Assignment.covers_append.mp covers
      rw [Bit.eval?, leftIh parts.1, rightIh parts.2, conjoin?_some]
      rfl

end Bit

/-! ## Wires -/

/-- Every wire of a circuit has a property. -/
def Bit.EveryWire (property : Wire -> Prop) : Bit -> Prop
  | .literal _ => True
  | .var _ => True
  | .notGate wire input => property ⟨wire, input⟩ ∧ input.EveryWire property
  | .andGate leftWire left rightWire right =>
      (property ⟨leftWire, left⟩ ∧ property ⟨rightWire, right⟩) ∧
        left.EveryWire property ∧ right.EveryWire property

theorem Bit.everyWire_of_forall {property : Wire -> Prop} (all : ∀ wire, property wire)
    (bit : Bit) : bit.EveryWire property := by
  induction bit with
  | literal value => trivial
  | var id => trivial
  | notGate wire input ih => exact ⟨all _, ih⟩
  | andGate leftWire left rightWire right leftIh rightIh =>
      exact ⟨⟨all _, all _⟩, leftIh, rightIh⟩

/-- Every wire of a circuit carries what its name stands for. -/
def Bit.WiredBy (contents : Nat -> Bit) (bit : Bit) : Prop :=
  bit.EveryWire fun wire => contents wire.name = wire.source

def Word.WiredBy (contents : Nat -> Bit) (word : Word) : Prop :=
  ∀ bit ∈ word.bits, bit.WiredBy contents

def Signal.WiredBy (contents : Nat -> Bit) (signal : Signal) : Prop :=
  signal.toWord.WiredBy contents

/-! ## Evaluators -/

namespace Evaluator

section

variable {Key : Type} [BEq Key] [Hashable Key] {source : Key -> Bit}

/-- An evaluator for an assignment, with the readings of the circuits that the keys stand for
recorded under those keys that it has visited. -/
structure Faithful (source : Key -> Bit) (assignment : Assignment) (evaluator : Evaluator Key) :
    Prop where
  fixed : evaluator.assignment = assignment
  recorded : ∀ (key : Key) (value : Option Bool), evaluator.visited[key]? = some value ->
    value = (source key).eval? assignment

theorem faithful_new [EquivBEq Key] [LawfulHashable Key] (source : Key -> Bit)
    (assignment : Assignment) : Faithful source assignment (.new assignment) where
  fixed := rfl
  recorded := by
    intro key value found
    simp [Evaluator.new] at found

/-- A computation answers in one way whatever has been visited before. -/
def Answers {α : Type} (source : Key -> Bit) (assignment : Assignment)
    (computation : StateM (Evaluator Key) α) (answer : α) : Prop :=
  ∀ evaluator, Faithful source assignment evaluator ->
    (computation.run evaluator).1 = answer ∧
      Faithful source assignment (computation.run evaluator).2

namespace Answers

variable {α β : Type}

theorem pure (answer : α) : Answers source assignment (Pure.pure answer) answer :=
  fun _ faithful => ⟨rfl, faithful⟩

theorem bind {first : α} {second : β} {computation : StateM (Evaluator Key) α}
    {next : α -> StateM (Evaluator Key) β} (answered : Answers source assignment computation first)
    (continued : Answers source assignment (next first) second) :
    Answers source assignment (computation >>= next) second := by
  intro evaluator faithful
  have step := answered evaluator faithful
  change ((next (computation.run evaluator).1).run (computation.run evaluator).2).1 = second ∧
    Faithful source assignment
      ((next (computation.run evaluator).1).run (computation.run evaluator).2).2
  rw [step.1]
  exact continued _ step.2

end Answers

variable [LawfulBEq Key] [LawfulHashable Key]

theorem answers_remember {key : Key} {circuit : Bit}
    {compute : StateM (Evaluator Key) (Option Bool)} (carried : source key = circuit)
    (computed : Answers source assignment compute (circuit.eval? assignment)) :
    Answers source assignment (remember key compute) (circuit.eval? assignment) := by
  intro evaluator faithful
  have unfolded : (remember key compute).run evaluator =
      evaluator.visited[key]?.elim
        ((compute.run evaluator).1,
          { (compute.run evaluator).2 with
            visited := (compute.run evaluator).2.visited.insert key (compute.run evaluator).1 })
        fun value => (value, evaluator) := by
    simp only [remember, StateT.run_bind, StateT.run_get, pure_bind]
    cases evaluator.visited[key]? <;> rfl
  rw [unfolded, ← carried]
  cases found : evaluator.visited[key]? with
  | some value => exact ⟨faithful.recorded key value found, faithful⟩
  | none =>
      have after := computed evaluator faithful
      rw [← carried] at after
      refine ⟨after.1, after.2.fixed, ?_⟩
      intro other value recorded
      simp only [Option.elim_none] at recorded
      rw [Std.HashMap.getElem?_insert] at recorded
      split at recorded
      · rename_i same
        rw [← eq_of_beq same, ← after.1]
        exact (Option.some.inj recorded).symm
      · exact after.2.recorded other value recorded

variable {key : Wire -> Key}

/-- The records of an evaluator do not show in its answers, provided that the key of every wire
stands for what the wire carries. -/
theorem answers_bitBy (assignment : Assignment) {bit : Bit}
    (keyed : bit.EveryWire fun wire => source (key wire) = wire.source) :
    Answers source assignment (bitBy key bit) (bit.eval? assignment) := by
  induction bit with
  | literal value => exact .pure _
  | var id =>
      intro evaluator faithful
      refine ⟨?_, faithful⟩
      rw [Bit.eval?, ← faithful.fixed]
      rfl
  | notGate wire input ih => exact (answers_remember keyed.1 (ih keyed.2)).bind (.pure _)
  | andGate leftWire left rightWire right leftIh rightIh =>
      refine (answers_remember keyed.1.1 (leftIh keyed.2.1)).bind ?_
      have rightAnswer := answers_remember keyed.1.2 (rightIh keyed.2.2)
      dsimp only
      rw [Bit.eval?]
      cases left.eval? assignment with
      | none => exact rightAnswer.bind (.pure _)
      | some value =>
          cases value with
          | false => exact .pure _
          | true => exact rightAnswer.bind (.pure _)

theorem answers_bitsBy (assignment : Assignment) {bits : List Bit}
    (keyed : ∀ bit ∈ bits, bit.EveryWire fun wire => source (key wire) = wire.source) :
    Answers source assignment (bitsBy key bits) (bits.mapM (Bit.eval? assignment)) := by
  induction bits with
  | nil => exact .pure _
  | cons first rest ih =>
      rw [List.forall_mem_cons] at keyed
      refine (answers_bitBy assignment keyed.1).bind ?_
      rw [mapM_cons_eq_bind_map]
      cases first.eval? assignment with
      | none => exact .pure _
      | some value => exact (ih keyed.2).bind (.pure _)

theorem answers_wordBy (assignment : Assignment) {word : Word}
    (keyed : ∀ bit ∈ word.bits, bit.EveryWire fun wire => source (key wire) = wire.source) :
    Answers source assignment (wordBy key word) (word.eval? assignment) := by
  unfold wordBy Word.eval? Word.valueBy?
  split
  · exact (answers_bitsBy assignment keyed).bind (.pure _)
  · exact .pure _

end

/-- A wire as a key stands for what it carries. -/
theorem answers_bit (assignment : Assignment) (bit : Bit) :
    Answers Wire.source assignment (Evaluator.bit bit) (bit.eval? assignment) :=
  answers_bitBy assignment (bit.everyWire_of_forall fun _ => rfl)

theorem answers_word (assignment : Assignment) (word : Word) :
    Answers Wire.source assignment (Evaluator.word word) (word.eval? assignment) :=
  answers_wordBy assignment fun bit _ => bit.everyWire_of_forall fun _ => rfl

end Evaluator

namespace Assignment

/-- What an evaluator that has visited nothing answers for a bit. -/
def evaluate (assignment : Assignment) (bit : Bit) : Option Bool :=
  ((Evaluator.bit bit).run (.new assignment)).1

/-- What an evaluator that has visited nothing answers for a word. -/
def evaluateWord (assignment : Assignment) (word : Word) : Option Nat :=
  ((Evaluator.word word).run (.new assignment)).1

@[simp] theorem evaluate_eq (assignment : Assignment) (bit : Bit) :
    assignment.evaluate bit = bit.eval? assignment :=
  (Evaluator.answers_bit assignment bit _ (Evaluator.faithful_new Wire.source assignment)).1

@[simp] theorem evaluateWord_eq (assignment : Assignment) (word : Word) :
    assignment.evaluateWord word = word.eval? assignment :=
  (Evaluator.answers_word assignment word _ (Evaluator.faithful_new Wire.source assignment)).1

end Assignment

/-! ## Many questions -/

namespace Evaluator

/-- The answer to a question for a bit or for a word. -/
inductive Reply where
  | bit (value : Option Bool)
  | word (number : Option Nat)
  deriving DecidableEq, Repr

/-- Ask an evaluator for a bit or for a word. -/
def askBy {Key : Type} [BEq Key] [Hashable Key] (key : Wire -> Key) :
    Signal -> StateM (Evaluator Key) Reply
  | .bit bit => return .bit (← bitBy key bit)
  | .word word => return .word (← wordBy key word)

def ask : Signal -> StateM Evaluator Reply :=
  askBy id

/-- The answer as it is read off the circuits, without an evaluator. -/
def reading (assignment : Assignment) : Signal -> Reply
  | .bit bit => .bit (bit.eval? assignment)
  | .word word => .word (word.eval? assignment)

section

variable {Key : Type} [BEq Key] [Hashable Key] [LawfulBEq Key] [LawfulHashable Key]
  {source : Key -> Bit} {key : Wire -> Key}

theorem answers_askBy (assignment : Assignment) {question : Signal}
    (keyed : ∀ bit ∈ question.toWord.bits,
      bit.EveryWire fun wire => source (key wire) = wire.source) :
    Answers source assignment (askBy key question) (reading assignment question) := by
  cases question with
  | bit bit => exact (answers_bitBy assignment (keyed bit List.mem_cons_self)).bind (.pure _)
  | word word => exact (answers_wordBy assignment keyed).bind (.pure _)

theorem answers_asksBy (assignment : Assignment) {questions : List Signal}
    (keyed : ∀ question ∈ questions, ∀ bit ∈ question.toWord.bits,
      bit.EveryWire fun wire => source (key wire) = wire.source) :
    Answers source assignment (questions.mapM (askBy key)) (questions.map (reading assignment)) := by
  induction questions with
  | nil => exact .pure _
  | cons first rest ih =>
      rw [List.forall_mem_cons] at keyed
      rw [List.mapM_cons]
      exact (answers_askBy assignment keyed.1).bind ((ih keyed.2).bind (.pure _))

end

theorem answers_ask (assignment : Assignment) (question : Signal) :
    Answers Wire.source assignment (ask question) (reading assignment question) :=
  answers_askBy assignment fun bit _ => bit.everyWire_of_forall fun _ => rfl

theorem answers_asks (assignment : Assignment) (questions : List Signal) :
    Answers Wire.source assignment (questions.mapM ask) (questions.map (reading assignment)) :=
  answers_asksBy assignment fun _ _ bit _ => bit.everyWire_of_forall fun _ => rfl

/-- The records of an evaluator are invisible.  Whatever it is asked, each answer is the
reading of the bit or word in question, and so is the answer to any question after that. -/
theorem history_invisible (assignment : Assignment) (questions : List Signal) :
    let asked := (questions.mapM ask).run (.new assignment)
    asked.1 = questions.map (reading assignment) ∧
    ∀ question, ((ask question).run asked.2).1 = reading assignment question := by
  intro asked
  have answered := answers_asks assignment questions _ (faithful_new Wire.source assignment)
  refine ⟨answered.1, ?_⟩
  intro question
  exact (answers_ask assignment question _ answered.2).1

/-- Where names stand for fixed contents, records are invisible as well if they are kept under
names, so that an evaluator need not look at what drives a wire. -/
theorem history_invisible_by_name {contents : Nat -> Bit} (assignment : Assignment)
    {questions : List Signal} (wired : ∀ question ∈ questions, question.WiredBy contents) :
    let asked := (questions.mapM (askBy Wire.name)).run (.new assignment)
    asked.1 = questions.map (reading assignment) ∧
    ∀ question : Signal, question.WiredBy contents ->
      ((askBy Wire.name question).run asked.2).1 = reading assignment question := by
  intro asked
  have answered := answers_asksBy assignment wired _ (faithful_new contents assignment)
  refine ⟨answered.1, ?_⟩
  intro question questionWired
  exact (answers_askBy assignment questionWired _ answered.2).1

end Evaluator
end SymbolicMachine
