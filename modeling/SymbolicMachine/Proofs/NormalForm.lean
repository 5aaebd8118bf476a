import SymbolicMachine.Proofs.Composition

namespace SymbolicMachine
namespace Bit

/-!
# The normal form of circuits

What operations make is simplified as far as outermost gates show it.  A circuit that is not a
literal has no literal anywhere inside, no negation directly below another, and no conjunction
of a bit with itself or with its negation, where bits are compared by recognised identity.  So
a known value is always visible from outside, and a circuit in which no variable occurs is a
literal.

A gate placed by hand need not be in this form, and then neither is what is built on top of it.
That is why the statements are about what is composed of literals and variables.
-/

/-! ## Parts of circuits -/

/-- All circuits that occur in a circuit, itself included. -/
def parts : Bit -> List Bit
  | literal value => [literal value]
  | var id => [var id]
  | notGate wire input => notGate wire input :: input.parts
  | andGate leftWire left rightWire right =>
      andGate leftWire left rightWire right :: (left.parts ++ right.parts)

/-- The outermost gate is no negation, and there is something to negate. -/
def Plain : Bit -> Prop
  | literal _ | notGate _ _ => False
  | var _ | andGate _ _ _ _ => True

/-- No gate is needed for a negation or a conjunction anywhere in the circuit. -/
structure Normal (bit : Bit) : Prop where
  /-- A literal stands alone. -/
  literals : ∀ {value}, literal value ∈ bit.parts -> bit = literal value
  /-- No negation is negated. -/
  negations : ∀ {outer inner input}, notGate outer (notGate inner input) ∉ bit.parts
  /-- Nothing is conjoined with itself or with its negation. -/
  conjunctions : ∀ {leftWire left rightWire right},
    andGate leftWire left rightWire right ∈ bit.parts ->
      left.identical right = false ∧ left.negates right = false ∧ right.negates left = false

variable {bit left right result input : Bit} {wire leftWire rightWire : Nat}

theorem mem_parts_notGate :
    bit ∈ (notGate wire input).parts ↔ bit = notGate wire input ∨ bit ∈ input.parts :=
  List.mem_cons

theorem mem_parts_andGate :
    bit ∈ (andGate leftWire left rightWire right).parts ↔
      bit = andGate leftWire left rightWire right ∨ bit ∈ left.parts ∨ bit ∈ right.parts := by
  rw [parts, List.mem_cons, List.mem_append]

theorem exists_literal_of_support (closed : bit.support = []) :
    ∃ value, literal value ∈ bit.parts := by
  induction bit with
  | literal value => exact ⟨value, List.mem_singleton.mpr rfl⟩
  | var id => cases closed
  | notGate wire input ih =>
      rcases ih closed with ⟨value, occurs⟩
      exact ⟨value, mem_parts_notGate.mpr (.inr occurs)⟩
  | andGate leftWire left rightWire right leftIh rightIh =>
      rcases leftIh (List.append_eq_nil_iff.mp closed).1 with ⟨value, occurs⟩
      exact ⟨value, mem_parts_andGate.mpr (.inr (.inl occurs))⟩

/-- Without variables nothing is left but a value. -/
theorem Normal.eq_literal (normal : bit.Normal) (closed : bit.support = []) :
    ∃ value, bit = literal value := by
  rcases exists_literal_of_support closed with ⟨value, occurs⟩
  exact ⟨value, normal.literals occurs⟩

/-! ## Where no gate is needed -/

/-- A conjunction that needs no gate is one of its operands or zero. -/
theorem conjunction?_eq_some (found : conjunction? left right = some result) :
    result = left ∨ result = right ∨ result = zero := by
  unfold conjunction? at found
  split at found
  · exact .inl (Option.some.inj found).symm
  · split at found
    · exact .inr (.inr (Option.some.inj found).symm)
    · exact .inr (.inl (Option.some.inj found).symm)
    · split at found
      · exact .inr (.inr (Option.some.inj found).symm)
      · split at found
        · exact .inr (.inr (Option.some.inj found).symm)
        · exact .inl (Option.some.inj found).symm
        · split at found
          · exact .inr (.inr (Option.some.inj found).symm)
          · cases found

/-- A conjunction that needs a gate has operands of which none is a literal, which are not
recognised as one, and of which neither negates the other. -/
theorem conjunction?_eq_none (needed : conjunction? left right = none) :
    (left.known = none ∧ right.known = none) ∧
      left.identical right = false ∧ left.negates right = false ∧ right.negates left = false := by
  unfold conjunction? at needed
  split at needed
  · cases needed
  · rename_i different
    split at needed
    · cases needed
    · cases needed
    · split at needed
      · cases needed
      · rename_i leftFalse leftTrue leftKept
        split at needed
        · cases needed
        · cases needed
        · split at needed
          · cases needed
          · rename_i rightFalse rightTrue rightKept
            rw [Bool.not_eq_true] at different leftKept rightKept
            refine ⟨⟨?_, ?_⟩, different, leftKept, rightKept⟩
            · cases left <;> simp_all [known]
            · cases right <;> simp_all [known]

/-- Whatever literals have, placed gates keep and a negated gate passes back to what it
negates, is kept by negation and conjunction.  Gates are placed only where they are needed. -/
theorem closed_of_gates {property : Bit -> Prop}
    (literals : ∀ value, property (literal value))
    (negation : ∀ {bit wire}, bit.Plain -> property bit -> property (notGate wire bit))
    (negated : ∀ {bit wire}, property (notGate wire bit) -> property bit)
    (conjunction : ∀ {left right leftWire rightWire},
      (left.known = none ∧ right.known = none) ->
      (left.identical right = false ∧ left.negates right = false ∧ right.negates left = false) ->
      property left -> property right ->
      property (andGate leftWire left rightWire right)) :
    Closed property where
  literal := literals
  not := by
    intro bit holds
    cases bit with
    | literal value => exact .pure (literals !value)
    | var id => exact fun session => negation trivial holds
    | notGate wire input => exact .pure (negated holds)
    | andGate leftWire left rightWire right => exact fun session => negation trivial holds
  and := by
    intro left right leftHolds rightHolds
    unfold and
    split
    · rename_i found
      rcases conjunction?_eq_some found with rfl | rfl | rfl
      · exact .pure leftHolds
      · exact .pure rightHolds
      · exact .pure (literals false)
    · rename_i needed
      have reasons := conjunction?_eq_none needed
      exact fun session => conjunction reasons.1 reasons.2 leftHolds rightHolds

/-- Operations bring in no variables. -/
theorem closed_support (allowed : Nat -> Prop) :
    Closed fun bit => ∀ id ∈ bit.support, allowed id := by
  apply closed_of_gates
  · intro value id occurs
    cases occurs
  · exact fun _ inside => inside
  · exact fun inside => inside
  · exact fun _ _ leftInside rightInside => List.forall_mem_append.mpr ⟨leftInside, rightInside⟩

/-! ## Normal circuits -/

namespace Normal

theorem literal (value : Bool) : (Bit.literal value).Normal where
  literals occurs := (List.mem_singleton.mp occurs).symm
  negations occurs := nomatch List.mem_singleton.mp occurs
  conjunctions occurs := nomatch List.mem_singleton.mp occurs

theorem var (id : Nat) : (Bit.var id).Normal where
  literals occurs := nomatch List.mem_singleton.mp occurs
  negations occurs := nomatch List.mem_singleton.mp occurs
  conjunctions occurs := nomatch List.mem_singleton.mp occurs

theorem plain_of_notGate (normal : (Bit.notGate wire input).Normal) : input.Plain := by
  cases input with
  | literal value =>
      have occurs : Bit.literal value ∈ (Bit.notGate wire (.literal value)).parts :=
        mem_parts_notGate.mpr (.inr (List.mem_singleton.mpr rfl))
      cases normal.literals occurs
  | var id => trivial
  | notGate inner deeper => exact normal.negations (mem_parts_notGate.mpr (.inl rfl))
  | andGate leftWire left rightWire right => trivial

theorem of_notGate (normal : (Bit.notGate wire input).Normal) : input.Normal where
  literals occurs := nomatch normal.literals (mem_parts_notGate.mpr (.inr occurs))
  negations occurs := normal.negations (mem_parts_notGate.mpr (.inr occurs))
  conjunctions occurs := normal.conjunctions (mem_parts_notGate.mpr (.inr occurs))

theorem notGate (plain : input.Plain) (normal : input.Normal) :
    (Bit.notGate wire input).Normal where
  literals occurs := by
    rcases mem_parts_notGate.mp occurs with impossible | inside
    · cases impossible
    · rw [normal.literals inside] at plain
      cases plain
  negations occurs := by
    rcases mem_parts_notGate.mp occurs with outermost | inside
    · rw [← (notGate.inj outermost).2] at plain
      cases plain
    · exact normal.negations inside
  conjunctions occurs := by
    rcases mem_parts_notGate.mp occurs with impossible | inside
    · cases impossible
    · exact normal.conjunctions inside

theorem andGate (unknown : left.known = none ∧ right.known = none)
    (reasons : left.identical right = false ∧ left.negates right = false ∧
      right.negates left = false)
    (leftNormal : left.Normal) (rightNormal : right.Normal) :
    (Bit.andGate leftWire left rightWire right).Normal where
  literals occurs := by
    rcases mem_parts_andGate.mp occurs with impossible | inLeft | inRight
    · cases impossible
    · rw [leftNormal.literals inLeft] at unknown
      cases unknown.1
    · rw [rightNormal.literals inRight] at unknown
      cases unknown.2
  negations occurs := by
    rcases mem_parts_andGate.mp occurs with impossible | inLeft | inRight
    · cases impossible
    · exact leftNormal.negations inLeft
    · exact rightNormal.negations inRight
  conjunctions occurs := by
    rcases mem_parts_andGate.mp occurs with outermost | inLeft | inRight
    · cases outermost
      exact reasons
    · exact leftNormal.conjunctions inLeft
    · exact rightNormal.conjunctions inRight

end Normal

theorem closed_normal : Closed Normal :=
  closed_of_gates .literal .notGate .of_notGate .andGate

theorem Composed.normal {allowed : Nat -> Prop} (composed : Composed allowed bit) : bit.Normal :=
  composed.holds closed_normal fun id _ => .var id

/-! ## Double negation -/

theorem sameShape_refl (bit : Bit) : bit.sameShape bit = true := by
  cases bit <;> simp [sameShape]

/-- A negation arrives on another wire, but it negates the same circuit. -/
theorem sameShape_notGate (wire other : Nat) (input : Bit) :
    (notGate wire input).sameShape (notGate other input) = true := by
  rw [sameShape, sameShape_refl, Bool.or_true]

theorem Plain.not (plain : bit.Plain) : bit.not = bit.placeNot := by
  cases bit with
  | literal value => cases plain
  | var id => rfl
  | notGate wire input => cases plain
  | andGate leftWire left rightWire right => rfl

/-- Negating twice gives the circuit back, at most with another wire for a negation. -/
theorem Normal.not_not (normal : bit.Normal) :
    Gives (do (← bit.not).not) fun again => again.sameShape bit = true := by
  cases bit with
  | literal value => exact .pure (by simp [sameShape])
  | var id => exact fun session => sameShape_refl _
  | notGate wire input =>
      change Gives input.not _
      rw [normal.plain_of_notGate.not]
      exact fun session => sameShape_notGate _ _ _
  | andGate leftWire left rightWire right => exact fun session => sameShape_refl _

/-! ## Everything that is composed -/

/-- Whatever operations make of literals and variables is in normal form, has no variables but
those it was made of, is a literal if it was made without any or if none has stayed, and is
given back by negating it twice.  The variables of a result occur in the operands. -/
theorem composed_in_normal_form :
    (∀ {allowed : Nat -> Prop} {bit : Bit}, Composed allowed bit ->
      bit.Normal ∧ (∀ id ∈ bit.support, allowed id) ∧
      ((∀ id, ¬ allowed id) -> ∃ value, bit = literal value) ∧
      (bit.support = [] -> ∃ value, bit = literal value) ∧
      Gives (do (← bit.not).not) fun again => again.sameShape bit = true) ∧
    ∀ operation : Operation, Returns operation.perform fun results =>
      ∀ result ∈ results, ∀ id ∈ result.support,
        ∃ operand ∈ operation.operands, id ∈ operand.support := by
  constructor
  · intro allowed bit composed
    have inside : ∀ id ∈ bit.support, allowed id := by
      apply composed.holds (closed_support allowed)
      intro id member other occurs
      rw [List.mem_singleton.mp occurs]
      exact member
    refine ⟨composed.normal, inside, ?_, composed.normal.eq_literal, composed.normal.not_not⟩
    intro noVariables
    apply composed.normal.eq_literal
    exact List.eq_nil_iff_forall_not_mem.mpr fun id occurs => noVariables id (inside id occurs)
  · intro operation
    apply (closed_support _).perform operation
    exact fun operand member id occurs => ⟨operand, member, occurs⟩

/-- A comparison of words with literals in both leaves no literal behind, and a choice between
known bits by a known condition leaves nothing else. -/
theorem composed_in_normal_form_examples :
    (∃ smaller,
      CanReturn (Operation.lessThan ⟨[var 0, one]⟩ ⟨[one, var 1]⟩).perform [smaller] ∧
      Composed (· < 2) smaller ∧ smaller.support = [1, 0] ∧
      smaller.Normal ∧ (∀ id ∈ smaller.support, id < 2) ∧
      Gives (do (← smaller.not).not) fun again => again.sameShape smaller = true) ∧
    Composed (fun _ => False) ((Connective.select one zero one).build.run {}).1 ∧
      ∃ value, ((Connective.select one zero one).build.run {}).1 = literal value := by
  constructor
  · have performed : CanReturn (Operation.lessThan ⟨[var 0, one]⟩ ⟨[one, var 1]⟩).perform
        [andGate 8 (var 1) 9 (notGate 4 (var 0))] := ⟨{}, rfl⟩
    have operands : ∀ operand ∈ (Operation.lessThan ⟨[var 0, one]⟩ ⟨[one, var 1]⟩).operands,
        Composed (· < 2) operand := by
      simp only [Operation.operands, List.forall_mem_append, List.forall_mem_cons,
        List.not_mem_nil, false_implies, implies_true, and_true]
      exact ⟨⟨.var (by decide), .literal true⟩, .literal true, .var (by decide)⟩
    have composed := Composed.result _ operands performed (List.mem_singleton.mpr rfl)
    have laws := composed_in_normal_form.1 composed
    exact ⟨_, performed, composed, rfl, laws.1, laws.2.1, laws.2.2.2.2⟩
  · have operands : ∀ operand ∈ (Connective.select one zero one).operands,
        Composed (fun _ => False) operand := by
      simp only [Connective.operands, List.forall_mem_cons, List.not_mem_nil, false_implies,
        implies_true, and_true]
      exact ⟨.literal true, .literal false, .literal true⟩
    have composed := Composed.build (.select one zero one) {} operands
    exact ⟨composed, (composed_in_normal_form.1 composed).2.2.1 fun _ => not_false⟩

end Bit
end SymbolicMachine
