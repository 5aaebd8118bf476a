import Mathlib.Data.List.Basic
import Mathlib.Logic.Embedding.Basic
import SymbolicMachine.Session.Rules
import SymbolicMachine.Word.Arithmetic

namespace SymbolicMachine

/-!
# Names do not matter

A session hands out names, and bits are compared by the names of their wires.  Which names these
are makes no difference as long as different ones stay different.  If the operands of a
construction are renamed and the session goes on with the new names in the place of the old ones,
the result is renamed, and nothing else changes: no gate more or less is built, and what was known
before is known then.

A renaming is an injection of the names.  It moves the operands as a function, but it only relates
the sessions: these may differ in their journals and in the identifiers of their variables, which
no construction of this module looks at.
-/

/-- The names that two sessions hand out from here on correspond. -/
def Session.Renamed (names : Nat ↪ Nat) (first second : Session) : Prop :=
  ∀ index, names (first.nextName + index) = second.nextName + index

/-- One value is what a function makes of another. -/
def Becomes {α β : Type} (change : α -> β) (value : α) (other : β) : Prop :=
  other = change value

/-- Two outcomes are the same failure, or results that are related. -/
inductive OutcomesAlike {ε α β : Type} (related : α -> β -> Prop) : Except ε α -> Except ε β -> Prop
  | ok {value : α} {other : β} : related value other -> OutcomesAlike related (.ok value) (.ok other)
  | error (cause : ε) : OutcomesAlike related (.error cause) (.error cause)

theorem OutcomesAlike.completes_iff {δ ε α β : Type} {related : α -> β -> Prop}
    {first : Except δ (Except ε α)} {second : Except δ (Except ε β)}
    (alike : OutcomesAlike (OutcomesAlike related) first second) :
    (∃ value, first = .ok (.ok value)) ↔ ∃ value, second = .ok (.ok value) := by
  cases alike with
  | ok outcomes => cases outcomes <;> simp
  | error cause => simp

/-- In sessions that correspond two constructions have results that are related, and leave
sessions that correspond. -/
def BuildsAlike {α β : Type} (names : Nat ↪ Nat) (related : α -> β -> Prop) (first : Build α)
    (second : Build β) : Prop :=
  ∀ session other, session.Renamed names other ->
    related (first.run session).1 (second.run other).1 ∧
    (first.run session).2.Renamed names (second.run other).2

/-- The same of constructions that may be misused. -/
def ChecksAlike {α β : Type} (names : Nat ↪ Nat) (related : α -> β -> Prop) (first : Checked α)
    (second : Checked β) : Prop :=
  BuildsAlike names (OutcomesAlike related) first.run second.run

variable {α β γ δ : Type} {names : Nat ↪ Nat}

/-! ## Sequences -/

namespace BuildsAlike

variable {related : α -> β -> Prop} {after : γ -> δ -> Prop}

theorem pure {value : α} {other : β} (holds : related value other) :
    BuildsAlike names related (Pure.pure value) (Pure.pure other) :=
  fun _ _ renamed => ⟨holds, renamed⟩

theorem bind {first : Build α} {second : Build β} {next : α -> Build γ}
    {next' : β -> Build δ} (alike : BuildsAlike names related first second)
    (continued : ∀ value other, related value other ->
      BuildsAlike names after (next value) (next' other)) :
    BuildsAlike names after (first >>= next) (second >>= next') := by
  intro session other renamed
  rcases alike session other renamed with ⟨results, later⟩
  exact continued _ _ results _ _ later

/-- The rest goes on from a result and from what becomes of it. -/
theorem andThen {change : α -> β} {first : Build α} {second : Build β} {next : α -> Build γ}
    {next' : β -> Build δ} (alike : BuildsAlike names (Becomes change) first second)
    (continued : ∀ value, BuildsAlike names after (next value) (next' (change value))) :
    BuildsAlike names after (first >>= next) (second >>= next') := by
  apply alike.bind
  rintro value _ rfl
  exact continued value

/-- Place by place the same, so the same for a whole list. -/
theorem mapM {change : γ -> δ} {result : α -> β} {build : γ -> Build α} {build' : δ -> Build β}
    (each : ∀ item, BuildsAlike names (Becomes result) (build item) (build' (change item)))
    (items : List γ) :
    BuildsAlike names (Becomes (List.map result)) (items.mapM build)
      ((items.map change).mapM build') := by
  induction items with
  | nil => exact pure rfl
  | cons item items ih =>
      rw [List.map_cons, List.mapM_cons, List.mapM_cons]
      apply (each item).andThen
      intro value
      apply ih.andThen
      intro values
      exact pure rfl

end BuildsAlike

theorem alike_freshName : BuildsAlike names (Becomes names) freshName freshName := by
  intro session other renamed
  refine ⟨(renamed 0).symm, ?_⟩
  intro index
  have later := renamed (1 + index)
  rwa [← Nat.add_assoc, ← Nat.add_assoc] at later

theorem alike_report (event event' : Event) :
    BuildsAlike names (fun _ _ => True) (report event) (report event') :=
  fun _ _ renamed => ⟨trivial, renamed⟩

namespace ChecksAlike

variable {related : α -> β -> Prop} {after : γ -> δ -> Prop}

theorem pure {value : α} {other : β} (holds : related value other) :
    ChecksAlike names related (Pure.pure value) (Pure.pure other) :=
  BuildsAlike.pure (.ok holds)

theorem throw (misuse : Misuse) :
    ChecksAlike names related (MonadExcept.throw misuse) (MonadExcept.throw misuse) :=
  BuildsAlike.pure (.error misuse)

theorem lift {first : Build α} {second : Build β} (alike : BuildsAlike names related first second) :
    ChecksAlike names related (liftM first) (liftM second) :=
  alike.bind fun _ _ holds => .pure (.ok holds)

theorem bind {first : Checked α} {second : Checked β} {next : α -> Checked γ}
    {next' : β -> Checked δ} (alike : ChecksAlike names related first second)
    (continued : ∀ value other, related value other ->
      ChecksAlike names after (next value) (next' other)) :
    ChecksAlike names after (first >>= next) (second >>= next') := by
  unfold ChecksAlike
  rw [ExceptT.run_bind, ExceptT.run_bind]
  apply BuildsAlike.bind alike
  intro outcome outcome' outcomes
  cases outcomes with
  | ok results => exact continued _ _ results
  | error misuse => exact .pure (.error misuse)

theorem andThen {change : α -> β} {first : Checked α} {second : Checked β}
    {next : α -> Checked γ} {next' : β -> Checked δ}
    (alike : ChecksAlike names (Becomes change) first second)
    (continued : ∀ value, ChecksAlike names after (next value) (next' (change value))) :
    ChecksAlike names after (first >>= next) (second >>= next') := by
  apply alike.bind
  rintro value _ rfl
  exact continued value

theorem require (condition : Bool) (misuse : Misuse) :
    ChecksAlike names (fun _ _ => True) (SymbolicMachine.require condition misuse)
      (SymbolicMachine.require condition misuse) := by
  cases condition with
  | true => exact .pure trivial
  | false => exact .throw misuse

/-- A requirement that is the same for both is met by both or by none. -/
theorem require_bind {condition : Bool} {misuse : Misuse} {next : Unit -> Checked γ}
    {next' : Unit -> Checked δ}
    (continued : ChecksAlike names after (next ()) (next' ())) :
    ChecksAlike names after (SymbolicMachine.require condition misuse >>= next)
      (SymbolicMachine.require condition misuse >>= next') :=
  (require condition misuse).bind fun _ _ _ => continued

theorem mapM {change : γ -> δ} {result : α -> β} {build : γ -> Checked α}
    {build' : δ -> Checked β}
    (each : ∀ item, ChecksAlike names (Becomes result) (build item) (build' (change item)))
    (items : List γ) :
    ChecksAlike names (Becomes (List.map result)) (items.mapM build)
      ((items.map change).mapM build') := by
  induction items with
  | nil => exact pure rfl
  | cons item items ih =>
      rw [List.map_cons, List.mapM_cons, List.mapM_cons]
      apply (each item).andThen
      intro value
      apply ih.andThen
      intro values
      exact pure rfl

end ChecksAlike

/-! ## Bits -/

namespace Bit

/-- The bit with other names for its wires. -/
def rename (names : Nat ↪ Nat) : Bit -> Bit
  | literal value => literal value
  | var id => var id
  | notGate wire input => notGate (names wire) (input.rename names)
  | andGate leftWire left rightWire right =>
      andGate (names leftWire) (left.rename names) (names rightWire) (right.rename names)

theorem rename_injective (names : Nat ↪ Nat) : Function.Injective (rename names) := by
  intro first
  induction first with
  | literal value => intro second same; cases second <;> simp_all [rename]
  | var id => intro second same; cases second <;> simp_all [rename]
  | notGate wire input ih =>
      intro second same
      cases second with
      | notGate wire' input' =>
          simp only [rename, notGate.injEq, EmbeddingLike.apply_eq_iff_eq] at same
          rw [same.1, ih same.2]
      | _ => cases same
  | andGate leftWire left rightWire right leftIh rightIh =>
      intro second same
      cases second with
      | andGate leftWire' left' rightWire' right' =>
          simp only [rename, andGate.injEq, EmbeddingLike.apply_eq_iff_eq] at same
          rw [same.1, leftIh same.2.1, same.2.2.1, rightIh same.2.2.2]
      | _ => cases same

theorem wire_eq_rename (names : Nat ↪ Nat) (wire wire' : Nat) (source source' : Bit) :
    decide (Wire.mk (names wire) (source.rename names) =
      Wire.mk (names wire') (source'.rename names)) =
    decide (Wire.mk wire source = Wire.mk wire' source') := by
  simp only [Wire.mk.injEq, EmbeddingLike.apply_eq_iff_eq, (rename_injective names).eq_iff]

@[simp] theorem known_rename (names : Nat ↪ Nat) (bit : Bit) :
    (bit.rename names).known = bit.known := by
  cases bit <;> rfl

@[simp] theorem sameVariable_rename (names : Nat ↪ Nat) (left right : Bit) :
    (left.rename names).sameVariable (right.rename names) = left.sameVariable right := by
  cases left <;> cases right <;> rfl

@[simp] theorem identical_rename (names : Nat ↪ Nat) (left right : Bit) :
    (left.rename names).identical (right.rename names) = left.identical right := by
  cases left <;> cases right <;>
    simp only [rename, identical, wire_eq_rename, sameVariable_rename]

@[simp] theorem negates_rename (names : Nat ↪ Nat) (left right : Bit) :
    (left.rename names).negates (right.rename names) = left.negates right := by
  cases left with
  | notGate wire input => exact identical_rename names input right
  | _ => rfl

theorem conjunction?_rename (names : Nat ↪ Nat) (left right : Bit) :
    conjunction? (left.rename names) (right.rename names) =
      (conjunction? left right).map (rename names) := by
  unfold conjunction?
  simp only [identical_rename, negates_rename]
  cases left.identical right with
  | true => rfl
  | false =>
      cases left with
      | literal value => cases value <;> rfl
      | _ =>
          cases right with
          | literal value =>
              cases value <;> simp only [rename, Bool.false_eq_true, if_false] <;> split <;> rfl
          | _ =>
              simp only [rename, Bool.false_eq_true, if_false]
              split
              · rfl
              · split <;> rfl

theorem alike_placeNot (input : Bit) :
    BuildsAlike names (Becomes (rename names)) (placeNot input) (placeNot (input.rename names)) := by
  apply alike_freshName.andThen
  intro wire
  exact .pure rfl

theorem alike_placeAnd (left right : Bit) :
    BuildsAlike names (Becomes (rename names)) (placeAnd left right)
      (placeAnd (left.rename names) (right.rename names)) := by
  apply alike_freshName.andThen
  intro leftWire
  apply alike_freshName.andThen
  intro rightWire
  exact .pure rfl

theorem alike_not (bit : Bit) :
    BuildsAlike names (Becomes (rename names)) bit.not (bit.rename names).not := by
  cases bit with
  | literal value => exact .pure rfl
  | var id => exact alike_placeNot (var id)
  | notGate wire input => exact .pure rfl
  | andGate leftWire left rightWire right => exact alike_placeNot (andGate leftWire left rightWire right)

theorem alike_and (left right : Bit) :
    BuildsAlike names (Becomes (rename names)) (left.and right)
      ((left.rename names).and (right.rename names)) := by
  unfold and
  rw [conjunction?_rename]
  cases conjunction? left right with
  | some bit => exact .pure rfl
  | none => exact alike_placeAnd left right

theorem alike_or (left right : Bit) :
    BuildsAlike names (Becomes (rename names)) (left.or right)
      ((left.rename names).or (right.rename names)) := by
  apply (alike_not left).andThen
  intro noLeft
  apply (alike_not right).andThen
  intro noRight
  apply (alike_and noLeft noRight).andThen
  intro neither
  exact alike_not neither

theorem alike_xor (left right : Bit) :
    BuildsAlike names (Becomes (rename names)) (left.xor right)
      ((left.rename names).xor (right.rename names)) := by
  apply (alike_not right).andThen
  intro noRight
  apply (alike_and left noRight).andThen
  intro onlyLeft
  apply (alike_not left).andThen
  intro noLeft
  apply (alike_and noLeft right).andThen
  intro onlyRight
  exact alike_or onlyLeft onlyRight

theorem alike_equals (left right : Bit) :
    BuildsAlike names (Becomes (rename names)) (left.equals right)
      ((left.rename names).equals (right.rename names)) := by
  unfold equals
  rw [identical_rename]
  cases left.identical right with
  | true => exact .pure rfl
  | false =>
      apply (alike_and left right).andThen
      intro both
      apply (alike_not left).andThen
      intro noLeft
      apply (alike_not right).andThen
      intro noRight
      apply (alike_and noLeft noRight).andThen
      intro neither
      exact alike_or both neither

theorem alike_select (condition whenTrue whenFalse : Bit) :
    BuildsAlike names (Becomes (rename names)) (condition.select whenTrue whenFalse)
      ((condition.rename names).select (whenTrue.rename names) (whenFalse.rename names)) := by
  have undecided : BuildsAlike names (Becomes (rename names))
      (do
        let taken ← condition.and whenTrue
        let otherwise ← condition.not
        let notTaken ← otherwise.and whenFalse
        taken.or notTaken)
      (do
        let taken ← (condition.rename names).and (whenTrue.rename names)
        let otherwise ← (condition.rename names).not
        let notTaken ← otherwise.and (whenFalse.rename names)
        taken.or notTaken) := by
    apply (alike_and condition whenTrue).andThen
    intro taken
    apply (alike_not condition).andThen
    intro otherwise
    apply (alike_and otherwise whenFalse).andThen
    intro notTaken
    exact alike_or taken notTaken
  unfold select
  rw [identical_rename]
  cases whenTrue.identical whenFalse with
  | true => exact .pure rfl
  | false =>
      cases condition with
      | literal value => cases value <;> exact .pure rfl
      | _ => exact undecided

end Bit

/-! ## Words -/

namespace Word

/-- The word with other names for the wires of its bits. -/
def rename (names : Nat ↪ Nat) (word : Word) : Word where
  bits := word.bits.map (Bit.rename names)

theorem rename_injective (names : Nat ↪ Nat) : Function.Injective (rename names) := by
  intro first second same
  rcases first with ⟨bits⟩
  rcases second with ⟨bits'⟩
  have equal : bits = bits' :=
    List.map_injective_iff.mpr (Bit.rename_injective names) (Word.mk.inj same)
  rw [equal]

@[simp] theorem width_rename (names : Nat ↪ Nat) (word : Word) :
    (word.rename names).width = word.width :=
  List.length_map _

@[simp] theorem rename_constant (names : Nat ↪ Nat) (value width : Nat) :
    (constant value width).rename names = constant value width := by
  simp [rename, constant, Bit.rename]

@[simp] theorem rename_zero (names : Nat ↪ Nat) (width : Nat) :
    (zero width).rename names = zero width := by
  simp [rename, zero, Bit.rename, Bit.zero]

@[simp] theorem identical_rename (names : Nat ↪ Nat) (left right : Word) :
    (left.rename names).identical (right.rename names) = left.identical right := by
  unfold identical
  rw [width_rename, width_rename]
  simp [rename, List.zip_map, Function.comp_def]

/-- Paired bits with other names for their wires. -/
def renamePairs (names : Nat ↪ Nat) : List (Bit × Bit) -> List (Bit × Bit) :=
  List.map (Prod.map (Bit.rename names) (Bit.rename names))

theorem alike_paired (left right : Word) :
    ChecksAlike names (Becomes (renamePairs names)) (paired left right)
      (paired (left.rename names) (right.rename names)) := by
  unfold paired
  rw [width_rename, width_rename]
  apply ChecksAlike.require_bind
  apply ChecksAlike.pure
  exact List.zip_map

theorem alike_select (condition : Bit) (whenTrue whenFalse : Word) :
    ChecksAlike names (Becomes (rename names)) (select condition whenTrue whenFalse)
      (select (condition.rename names) (whenTrue.rename names) (whenFalse.rename names)) := by
  apply (alike_paired whenTrue whenFalse).andThen
  intro pairs
  have combined : BuildsAlike names (Becomes (List.map (Bit.rename names)))
      (combine condition.select pairs)
      (combine (condition.rename names).select (renamePairs names pairs)) :=
    .mapM (fun pair => condition.alike_select pair.1 pair.2) pairs
  apply (ChecksAlike.lift combined).andThen
  intro bits
  exact .pure rfl

theorem alike_not (word : Word) :
    BuildsAlike names (Becomes (rename names)) word.not (word.rename names).not := by
  apply (BuildsAlike.mapM Bit.alike_not word.bits).andThen
  intro bits
  exact .pure rfl

theorem alike_rippleAdd (carry : Bit) (pairs : List (Bit × Bit)) :
    BuildsAlike names (Becomes (Prod.map (List.map (Bit.rename names)) (Bit.rename names)))
      (rippleAdd carry pairs) (rippleAdd (carry.rename names) (renamePairs names pairs)) := by
  induction pairs generalizing carry with
  | nil => exact .pure rfl
  | cons pair rest ih =>
      rcases pair with ⟨x, y⟩
      apply (x.alike_xor y).andThen
      intro halfSum
      apply (halfSum.alike_xor carry).andThen
      intro sum
      apply (x.alike_and y).andThen
      intro generated
      apply (x.alike_xor y).andThen
      intro propagates
      apply (carry.alike_and propagates).andThen
      intro propagated
      apply (generated.alike_or propagated).andThen
      intro next
      apply (ih next).andThen
      rintro ⟨sums, last⟩
      exact .pure rfl

theorem alike_addWithCarry (left right : Word) (carry : Bit) :
    ChecksAlike names (Becomes (Prod.map (rename names) (Bit.rename names)))
      (addWithCarry left right carry)
      (addWithCarry (left.rename names) (right.rename names) (carry.rename names)) := by
  apply (alike_paired left right).andThen
  intro pairs
  apply (ChecksAlike.lift (alike_rippleAdd carry pairs)).andThen
  rintro ⟨sums, last⟩
  exact .pure rfl

theorem alike_sub (left right : Word) :
    ChecksAlike names (Becomes (rename names)) (left.sub right)
      ((left.rename names).sub (right.rename names)) := by
  apply (ChecksAlike.lift (alike_not right)).andThen
  intro inverted
  apply (alike_addWithCarry left inverted .one).andThen
  rintro ⟨sum, last⟩
  exact .pure rfl

/-- What is compared so far is conjoined with the rest, pair by pair. -/
theorem alike_foldlM_equals (pairs : List (Bit × Bit)) (equal : Bit) :
    BuildsAlike names (Becomes (Bit.rename names))
      (pairs.foldlM (fun equal (x, y) => do equal.and (← x.equals y)) equal)
      ((renamePairs names pairs).foldlM (fun equal (x, y) => do equal.and (← x.equals y))
        (equal.rename names)) := by
  induction pairs generalizing equal with
  | nil => exact .pure rfl
  | cons pair rest ih =>
      rcases pair with ⟨x, y⟩
      rw [renamePairs, List.map_cons, List.foldlM_cons, List.foldlM_cons]
      have compared : BuildsAlike names (Becomes (Bit.rename names))
          (do equal.and (← x.equals y))
          (do (equal.rename names).and (← (x.rename names).equals (y.rename names))) := by
        apply (x.alike_equals y).andThen
        intro same
        exact equal.alike_and same
      apply compared.andThen
      intro sofar
      exact ih sofar

theorem alike_equals (left right : Word) :
    ChecksAlike names (Becomes (Bit.rename names)) (left.equals right)
      ((left.rename names).equals (right.rename names)) := by
  apply (alike_paired left right).andThen
  intro pairs
  exact ChecksAlike.lift (alike_foldlM_equals pairs .one)

theorem alike_rotateRight (word : Word) (carry : Bit) :
    ChecksAlike names (Becomes (Prod.map (rename names) (Bit.rename names)))
      (word.rotateRight carry) ((word.rename names).rotateRight (carry.rename names)) := by
  rcases word with ⟨_ | ⟨lowest, rest⟩⟩
  · exact .throw .bitOutOfRange
  · apply ChecksAlike.pure
    simp [Becomes, rename]

end Word
end SymbolicMachine
