import SymbolicMachine.Session
import SymbolicMachine.Traversal

namespace SymbolicMachine

/-!
# Reasoning about constructions

What a construction returns may depend on the session only through the names and
identifiers that it is handed.  Properties of results are therefore stated for every
session: `Gives` for constructions that always succeed, and `Succeeds` for those that
may be misused, where it also says that no misuse occurs.

Both are closed under sequencing, so a property of a composite construction follows
from the properties of its parts, and a property of a traversal from what is known
of each item.  Nothing is said about the session afterwards.
`Returns` leaves it open whether a misuse occurs and says what holds if none does, and
`Misuses` says that one does and which.

A computation may also fail for a reason of its own.  `Ends` says that it is not
misused either and what holds of its outcome, be it a result or a reason.  `Yields`
says the former and what holds of its result, if there is one, and `Completes` that
there is one as well.
-/

variable {α β : Type}

/-- In every session the result of a construction has a property. -/
def Gives (construction : Build α) (property : α -> Prop) : Prop :=
  ∀ session, property (construction.run session).1

namespace Gives

theorem pure {property : α -> Prop} {value : α} (holds : property value) :
    Gives (Pure.pure value) property :=
  fun _ => holds

/-- A construction that always succeeds gives something. -/
theorem any (construction : Build α) : Gives construction fun _ => True :=
  fun _ => trivial

theorem bind {first : α -> Prop} {second : β -> Prop} {construction : Build α}
    {next : α -> Build β} (given : Gives construction first)
    (continued : ∀ value, first value -> Gives (next value) second) :
    Gives (construction >>= next) second :=
  fun session => continued _ (given session) _

theorem mono {property weaker : α -> Prop} {construction : Build α}
    (given : Gives construction property) (implied : ∀ value, property value -> weaker value) :
    Gives construction weaker :=
  fun session => implied _ (given session)

/-- A traversal of items that have meanings gives results that have the same meanings. -/
theorem mapM {γ : Type} {before : α -> γ -> Prop} {after : β -> γ -> Prop}
    {construct : α -> Build β} {items : List α} {meanings : List γ}
    (related : List.Forall₂ before items meanings)
    (one : ∀ item meaning, before item meaning ->
      Gives (construct item) fun result => after result meaning) :
    Gives (items.mapM construct) fun results => List.Forall₂ after results meanings := by
  induction related with
  | nil => exact .pure .nil
  | cons head tail ih =>
      rw [List.mapM_cons]
      refine (one _ _ head).bind fun result holds => ?_
      exact ih.bind fun results tailHolds => .pure (.cons holds tailHolds)

theorem forall_mapM {property : β -> Prop} {construct : α -> Build β} {items : List α}
    (each : ∀ item ∈ items, Gives (construct item) property) :
    Gives (items.mapM construct) fun results => ∀ result ∈ results, property result := by
  induction items with
  | nil => exact .pure fun result member => nomatch member
  | cons item rest ih =>
      rw [List.forall_mem_cons] at each
      rw [List.mapM_cons]
      refine each.1.bind fun result holds => ?_
      refine (ih each.2).bind fun results allHold => ?_
      exact .pure (List.forall_mem_cons.mpr ⟨holds, allHold⟩)

/-- What holds at the start and is kept by every item holds at the end. -/
theorem foldlM {property : β -> Prop} {step : β -> α -> Build β} {items : List α} {start : β}
    (initially : property start)
    (each : ∀ item ∈ items, ∀ reached, property reached -> Gives (step reached item) property) :
    Gives (items.foldlM step start) property := by
  induction items generalizing start with
  | nil => exact .pure initially
  | cons item rest ih =>
      rw [List.forall_mem_cons] at each
      rw [List.foldlM_cons]
      exact (each.1 start initially).bind fun reached holds => ih holds each.2

end Gives

/-- In every session a construction ends without misuse and its result has a
property. -/
def Succeeds (construction : Checked α) (property : α -> Prop) : Prop :=
  Gives construction.run fun outcome => ∃ value, outcome = .ok value ∧ property value

namespace Succeeds

theorem pure {property : α -> Prop} {value : α} (holds : property value) :
    Succeeds (Pure.pure value) property :=
  fun _ => ⟨value, rfl, holds⟩

/-- A construction that always succeeds is never misused. -/
theorem lift {property : α -> Prop} {construction : Build α}
    (given : Gives construction property) :
    Succeeds (liftM construction) property :=
  fun session => ⟨_, rfl, given session⟩

theorem bind {first : α -> Prop} {second : β -> Prop} {construction : Checked α}
    {next : α -> Checked β} (given : Succeeds construction first)
    (continued : ∀ value, first value -> Succeeds (next value) second) :
    Succeeds (construction >>= next) second := by
  unfold Succeeds
  rw [ExceptT.run_bind]
  refine Gives.bind given fun outcome succeeded => ?_
  obtain ⟨value, rfl, holds⟩ := succeeded
  exact continued value holds

theorem mono {property weaker : α -> Prop} {construction : Checked α}
    (given : Succeeds construction property) (implied : ∀ value, property value -> weaker value) :
    Succeeds construction weaker :=
  Gives.mono given fun _ ⟨value, same, holds⟩ => ⟨value, same, implied value holds⟩

/-- A requirement that is met changes nothing. -/
theorem require {condition : Bool} {misuse : Misuse} (met : condition = true) :
    Succeeds (require condition misuse) fun _ => True := by
  subst met
  exact pure trivial

/-- What holds for each of several reasons holds for all of them together. -/
theorem all {ι : Type} [some : Nonempty ι] {property : ι -> α -> Prop}
    {construction : Checked α} (each : ∀ index, Succeeds construction (property index)) :
    Succeeds construction fun value => ∀ index, property index value := by
  intro session
  rcases some with ⟨one⟩
  rcases each one session with ⟨value, same, _⟩
  refine ⟨value, same, ?_⟩
  intro index
  rcases each index session with ⟨other, sameAgain, holds⟩
  cases same.symm.trans sameAgain
  exact holds

/-- What is reported does not affect what follows. -/
theorem report_bind {property : β -> Prop} (event : Event) {next : Unit -> Checked β}
    (continued : Succeeds (next ()) property) :
    Succeeds (liftM (report event) >>= next) property :=
  (lift (Gives.any (report event))).bind fun _ _ => continued

theorem mapM {after : α -> β -> Prop} {construct : α -> Checked β} {items : List α}
    (one : ∀ item ∈ items, Succeeds (construct item) (after item)) :
    Succeeds (items.mapM construct) fun results => List.Forall₂ after items results := by
  induction items with
  | nil => exact .pure .nil
  | cons item rest ih =>
      rw [List.forall_mem_cons] at one
      rw [List.mapM_cons]
      refine one.1.bind fun result holds => ?_
      exact (ih one.2).bind fun results tailHolds => .pure (.cons holds tailHolds)

end Succeeds

/-- In every session a construction is misused or its result has a property. -/
def Returns (construction : Checked α) (property : α -> Prop) : Prop :=
  Gives construction.run fun outcome =>
    (∃ misuse, outcome = .error misuse) ∨ ∃ value, outcome = .ok value ∧ property value

/-- In some session a construction ends without misuse and has this result. -/
def CanReturn (construction : Checked α) (value : α) : Prop :=
  ∃ session, (construction.run.run session).1 = .ok value

namespace Returns

theorem pure {property : α -> Prop} {value : α} (holds : property value) :
    Returns (Pure.pure value) property :=
  fun _ => .inr ⟨value, rfl, holds⟩

theorem throw {property : α -> Prop} {misuse : Misuse} :
    Returns (MonadExcept.throw misuse) property :=
  fun _ => .inl ⟨misuse, rfl⟩

/-- Nothing needs to be known about a construction to say nothing about its result. -/
theorem any (construction : Checked α) : Returns construction fun _ => True := by
  intro session
  cases (construction.run.run session).1 with
  | ok value => exact .inr ⟨value, rfl, trivial⟩
  | error misuse => exact .inl ⟨misuse, rfl⟩

theorem of_canReturn {property : α -> Prop} {construction : Checked α} {value : α}
    (given : Returns construction property) (possible : CanReturn construction value) :
    property value := by
  rcases possible with ⟨session, ended⟩
  have holds := given session
  rw [ended] at holds
  rcases holds with ⟨misuse, impossible⟩ | ⟨_, ⟨⟩, holds⟩
  · cases impossible
  · exact holds

theorem of_ok {property : α -> Prop} {construction : Checked α} {before after : Session}
    {value : α} (given : Returns construction property)
    (ended : construction.run.run before = (.ok value, after)) : property value :=
  given.of_canReturn ⟨before, congrArg Prod.fst ended⟩

theorem bind {first : α -> Prop} {second : β -> Prop} {construction : Checked α}
    {next : α -> Checked β} (given : Returns construction first)
    (continued : ∀ value, first value -> Returns (next value) second) :
    Returns (construction >>= next) second := by
  unfold Returns
  rw [ExceptT.run_bind]
  refine Gives.bind given fun outcome holds => ?_
  rcases holds with ⟨misuse, rfl⟩ | ⟨value, rfl, holds⟩
  · exact throw
  · exact continued value holds

theorem mono {property weaker : α -> Prop} {construction : Checked α}
    (given : Returns construction property) (implied : ∀ value, property value -> weaker value) :
    Returns construction weaker := by
  refine Gives.mono given fun outcome holds => ?_
  rcases holds with misused | ⟨value, same, holds⟩
  · exact .inl misused
  · exact .inr ⟨value, same, implied value holds⟩

/-- Constructions that agree on every result go on alike. -/
theorem bind_congr {property : α -> Prop} {construction : Checked α} {next other : α -> Checked β}
    (given : Returns construction property)
    (same : ∀ value, property value -> next value = other value) :
    construction >>= next = construction >>= other := by
  apply ExceptT.ext
  rw [ExceptT.run_bind, ExceptT.run_bind]
  apply StateT.ext
  intro session
  rw [StateT.run_bind, StateT.run_bind]
  cases ended : construction.run.run session with
  | mk outcome later =>
      cases outcome with
      | ok value => exact congrArg (fun rest => rest.run.run later) (same value (given.of_ok ended))
      | error misuse => rfl

/-- A requirement may be taken to be met. -/
theorem of_require {property : β -> Prop} {condition : Bool} {misuse : Misuse}
    {next : Unit -> Checked β}
    (given : condition = true -> Returns (require condition misuse >>= next) property) :
    Returns (require condition misuse >>= next) property := by
  cases condition with
  | true => exact given rfl
  | false => exact throw

/-- A construction in which a requirement fails has no result. -/
theorem require_bind {property : β -> Prop} {condition : Bool} {misuse : Misuse}
    {next : Unit -> Checked β} (continued : condition = true -> Returns (next ()) property) :
    Returns (require condition misuse >>= next) property := by
  cases condition with
  | true => exact continued rfl
  | false => exact throw

theorem mapM {after : α -> β -> Prop} {construct : α -> Checked β} {items : List α}
    (one : ∀ item ∈ items, Returns (construct item) (after item)) :
    Returns (items.mapM construct) fun results => List.Forall₂ after items results := by
  induction items with
  | nil => exact .pure .nil
  | cons item rest ih =>
      rw [List.forall_mem_cons] at one
      rw [List.mapM_cons]
      refine one.1.bind fun result holds => ?_
      exact (ih one.2).bind fun results tailHolds => .pure (.cons holds tailHolds)

end Returns

theorem Succeeds.returns {property : α -> Prop} {construction : Checked α}
    (given : Succeeds construction property) : Returns construction property :=
  fun session => .inr (given session)

/-- What holds of any result holds of the result that there is. -/
theorem Succeeds.and_returns {first second : α -> Prop} {construction : Checked α}
    (total : Succeeds construction first) (always : Returns construction second) :
    Succeeds construction fun value => first value ∧ second value := by
  intro session
  rcases total session with ⟨value, found, holds⟩
  rcases always session with ⟨misuse, misused⟩ | ⟨other, foundAgain, further⟩
  · cases found.symm.trans misused
  · cases found.symm.trans foundAgain
    exact ⟨value, found, holds, further⟩

/-- After a construction with a result, the rest goes on in the session that it leaves. -/
theorem run_lift_bind {ε : Type} {construction : Checked α} {next : α -> ExceptT ε Checked β}
    {value : α} {before after : Session} (ended : construction.run.run before = (.ok value, after)) :
    (liftM construction >>= next).run.run.run before = (next value).run.run.run after := by
  rw [ExceptT.run_bind, ExceptT.run_liftM, bind_map_left, ExceptT.run_bind, StateT.run_bind, ended]
  rfl

/-- After a computation with a result, the rest goes on in the session that it leaves. -/
theorem run_bind_ok {ε : Type} {computation : ExceptT ε Checked α} {next : α -> ExceptT ε Checked β}
    {value : α} {before after : Session}
    (ended : computation.run.run.run before = (.ok (.ok value), after)) :
    (computation >>= next).run.run.run before = (next value).run.run.run after := by
  rw [ExceptT.run_bind, ExceptT.run_bind, StateT.run_bind, ended]
  rfl

/-- A failure is the end of what it happens in. -/
theorem run_bind_error {ε : Type} {computation : ExceptT ε Checked α}
    {next : α -> ExceptT ε Checked β} {cause : ε} {before after : Session}
    (ended : computation.run.run.run before = (.ok (.error cause), after)) :
    (computation >>= next).run.run.run before = (.ok (.error cause), after) := by
  rw [ExceptT.run_bind, ExceptT.run_bind, StateT.run_bind, ended]
  rfl

/-- Another reason for a failure is given in place of the one there was. -/
theorem run_adapt {ε δ : Type} {computation : ExceptT ε Checked α} {outcome : Except ε α}
    {before after : Session} (reason : ε -> δ)
    (ended : computation.run.run.run before = (.ok outcome, after)) :
    (computation.adapt reason).run.run.run before = (.ok (outcome.mapError reason), after) := by
  change ((computation.run >>= fun outcome => Pure.pure (outcome.mapError reason)).run.run
    before) = _
  rw [ExceptT.run_bind, StateT.run_bind, ended]
  rfl

/-- A misuse is the end of what it happens in. -/
theorem run_bind_misused {construction : Checked α} {next : α -> Checked β} {misuse : Misuse}
    {session : Session} (misused : (construction.run.run session).1 = .error misuse) :
    ((construction >>= next).run.run session).1 = .error misuse := by
  rw [ExceptT.run_bind, StateT.run_bind]
  cases ended : construction.run.run session with
  | mk outcome later =>
      rw [ended] at misused
      cases misused
      rfl

/-- In every session a construction ends with this misuse. -/
def Misuses (construction : Checked α) (misuse : Misuse) : Prop :=
  Gives construction.run fun outcome => outcome = .error misuse

namespace Misuses

variable {misuse : Misuse}

theorem require {condition : Bool} (unmet : condition = false) :
    Misuses (require condition misuse) misuse := by
  subst unmet
  exact fun _ => rfl

theorem bind {construction : Checked α} {next : α -> Checked β}
    (misused : Misuses construction misuse) : Misuses (construction >>= next) misuse :=
  fun session => run_bind_misused (misused session)

/-- What comes before a misuse and is none itself does not prevent it. -/
theorem lift_bind {first : α -> Prop} {construction : Build α} {next : α -> Checked β}
    (given : Gives construction first)
    (continued : ∀ value, first value -> Misuses (next value) misuse) :
    Misuses (liftM construction >>= next) misuse :=
  fun session => continued _ (given session) _

end Misuses

theorem run_lift_bind_misused {ε : Type} {construction : Checked α}
    {next : α -> ExceptT ε Checked β} {misuse : Misuse} {session : Session}
    (misused : (construction.run.run session).1 = .error misuse) :
    ((liftM construction >>= next).run.run.run session).1 = .error misuse := by
  rw [ExceptT.run_bind, ExceptT.run_liftM, bind_map_left]
  exact run_bind_misused misused

/-- A result that a test finds in an outcome is the outcome. -/
theorem exists_ok_of_any {δ ε : Type} {outcome : Except δ (Except ε α)} {test : α -> Bool}
    (found : (outcome.toOption.bind Except.toOption).any test = true) :
    ∃ value, outcome = .ok (.ok value) ∧ test value = true := by
  cases outcome with
  | error misuse => cases found
  | ok ended =>
      cases ended with
      | error cause => cases found
      | ok value => exact ⟨value, rfl, found⟩

/-- In every session a computation ends without misuse and its outcome has a property. -/
def Ends {ε : Type} (computation : ExceptT ε Checked α) (property : Except ε α -> Prop) : Prop :=
  Succeeds computation.run property

namespace Ends

variable {ε : Type}

theorem pure {property : Except ε α -> Prop} {value : α} (holds : property (.ok value)) :
    Ends (Pure.pure value) property :=
  Succeeds.pure holds

theorem throw {property : Except ε α -> Prop} {cause : ε} (holds : property (.error cause)) :
    Ends (MonadExcept.throw cause) property :=
  Succeeds.pure holds

theorem bind {first : Except ε α -> Prop} {second : Except ε β -> Prop}
    {computation : ExceptT ε Checked α} {next : α -> ExceptT ε Checked β}
    (given : Ends computation first)
    (failed : ∀ cause, first (.error cause) -> second (.error cause))
    (continued : ∀ value, first (.ok value) -> Ends (next value) second) :
    Ends (computation >>= next) second := by
  unfold Ends
  rw [ExceptT.run_bind]
  apply Succeeds.bind given
  intro outcome holds
  cases outcome with
  | ok value => exact continued value holds
  | error cause => exact .pure (failed cause holds)

/-- A construction that is not misused does not fail. -/
theorem lift_bind {first : α -> Prop} {second : Except ε β -> Prop} {construction : Checked α}
    {next : α -> ExceptT ε Checked β} (given : Succeeds construction first)
    (continued : ∀ value, first value -> Ends (next value) second) :
    Ends (liftM construction >>= next) second := by
  unfold Ends
  rw [ExceptT.run_bind, ExceptT.run_liftM, bind_map_left]
  exact given.bind continued

theorem report_bind {second : Except ε β -> Prop} (event : Event)
    {next : Unit -> ExceptT ε Checked β} (continued : Ends (next ()) second) :
    Ends (liftM (report event) >>= next) second :=
  lift_bind (Succeeds.lift (Gives.any (report event))) fun _ _ => continued

end Ends

/-- In every session a computation ends without misuse, and if it has a result, the
result has a property. -/
def Yields {ε : Type} (computation : ExceptT ε Checked α) (property : α -> Prop) : Prop :=
  Ends computation fun outcome => ∀ value, outcome = .ok value -> property value

namespace Yields

variable {ε δ : Type}

theorem pure {property : α -> Prop} {value : α} (holds : property value) :
    Yields (Pure.pure value : ExceptT ε Checked α) property := by
  apply Ends.pure
  rintro _ ⟨⟩
  exact holds

theorem throw {property : α -> Prop} {cause : ε} :
    Yields (MonadExcept.throw cause : ExceptT ε Checked α) property := by
  apply Ends.throw
  intro _ impossible
  cases impossible

theorem bind {first : α -> Prop} {second : β -> Prop} {computation : ExceptT ε Checked α}
    {next : α -> ExceptT ε Checked β} (given : Yields computation first)
    (continued : ∀ value, first value -> Yields (next value) second) :
    Yields (computation >>= next) second := by
  apply Ends.bind given
  · intro cause _ value impossible
    cases impossible
  · intro value holds
    exact continued value (holds value rfl)

theorem mono {property weaker : α -> Prop} {computation : ExceptT ε Checked α}
    (given : Yields computation property) (implied : ∀ value, property value -> weaker value) :
    Yields computation weaker :=
  Succeeds.mono given fun _ holds value same => implied value (holds value same)

theorem lift_bind {first : α -> Prop} {second : β -> Prop} {construction : Checked α}
    {next : α -> ExceptT ε Checked β} (given : Succeeds construction first)
    (continued : ∀ value, first value -> Yields (next value) second) :
    Yields (liftM construction >>= next) second :=
  Ends.lift_bind given continued

theorem report_bind {second : β -> Prop} (event : Event) {next : Unit -> ExceptT ε Checked β}
    (continued : Yields (next ()) second) : Yields (liftM (report event) >>= next) second :=
  Ends.report_bind event continued

theorem all {ι : Type} [Nonempty ι] {property : ι -> α -> Prop}
    {computation : ExceptT ε Checked α} (each : ∀ index, Yields computation (property index)) :
    Yields computation fun value => ∀ index, property index value :=
  Succeeds.mono (Succeeds.all each) fun _ holds value same index => holds index value same

theorem report_if_bind {second : β -> Prop} {condition : Prop} [Decidable condition]
    (event : Event) {next : Unit -> ExceptT ε Checked β} (continued : Yields (next ()) second) :
    Yields (if condition then liftM (report event) >>= next else next ()) second := by
  split
  · exact report_bind event continued
  · exact continued

/-- Another reason for a failure is not another result. -/
theorem adapt {property : α -> Prop} {computation : ExceptT ε Checked α} (reason : ε -> δ)
    (given : Yields computation property) : Yields (computation.adapt reason) property := by
  have mapped : (computation.adapt reason).run =
      computation.run >>= fun outcome => Pure.pure (outcome.mapError reason) := rfl
  unfold Yields Ends
  rw [mapped]
  apply Succeeds.bind given
  intro outcome holds
  apply Succeeds.pure
  intro value same
  cases outcome with
  | ok result =>
      cases same
      exact holds value rfl
  | error cause => cases same

/-- What a computation yields holds of the result to which it comes in a session. -/
theorem of_ok {property : α -> Prop} {computation : ExceptT ε Checked α} {session : Session}
    {value : α} (given : Yields computation property)
    (ended : (computation.run.run.run session).1 = .ok (.ok value)) : property value := by
  rcases given session with ⟨outcome, reached, holds⟩
  rw [ended] at reached
  cases reached
  exact holds value rfl

end Yields

/-- In every session a computation ends without misuse and has a result, and the result
has a property. -/
def Completes {ε : Type} (computation : ExceptT ε Checked α) (property : α -> Prop) : Prop :=
  Ends computation fun outcome => ∃ value, outcome = .ok value ∧ property value

namespace Completes

variable {ε δ : Type}

theorem pure {property : α -> Prop} {value : α} (holds : property value) :
    Completes (Pure.pure value : ExceptT ε Checked α) property :=
  Ends.pure ⟨value, rfl, holds⟩

theorem bind {first : α -> Prop} {second : β -> Prop} {computation : ExceptT ε Checked α}
    {next : α -> ExceptT ε Checked β} (given : Completes computation first)
    (continued : ∀ value, first value -> Completes (next value) second) :
    Completes (computation >>= next) second := by
  apply Ends.bind given
  · rintro cause ⟨_, impossible, _⟩
    cases impossible
  · rintro value ⟨_, ⟨⟩, holds⟩
    exact continued value holds

theorem lift_bind {first : α -> Prop} {second : β -> Prop} {construction : Checked α}
    {next : α -> ExceptT ε Checked β} (given : Succeeds construction first)
    (continued : ∀ value, first value -> Completes (next value) second) :
    Completes (liftM construction >>= next) second :=
  Ends.lift_bind given continued

theorem report_bind {second : β -> Prop} (event : Event) {next : Unit -> ExceptT ε Checked β}
    (continued : Completes (next ()) second) :
    Completes (liftM (report event) >>= next) second :=
  Ends.report_bind event continued

theorem mono {property weaker : α -> Prop} {computation : ExceptT ε Checked α}
    (given : Completes computation property)
    (implied : ∀ value, property value -> weaker value) : Completes computation weaker := by
  apply Succeeds.mono given
  rintro outcome ⟨value, same, holds⟩
  exact ⟨value, same, implied value holds⟩

/-- What holds of the result if there is one, each for a reason of its own, holds of the
result that there is. -/
theorem and_all {ι : Type} {first : α -> Prop} {second : ι -> α -> Prop}
    {computation : ExceptT ε Checked α} (complete : Completes computation first)
    (each : ∀ index, Yields computation (second index)) :
    Completes computation fun value => first value ∧ ∀ index, second index value := by
  intro session
  rcases complete session with ⟨outcome, ended, value, same, holds⟩
  refine ⟨outcome, ended, value, same, holds, ?_⟩
  intro index
  rcases each index session with ⟨other, endedAgain, further⟩
  cases ended.symm.trans endedAgain
  exact further value same

theorem and_yields {first second : α -> Prop} {computation : ExceptT ε Checked α}
    (complete : Completes computation first) (always : Yields computation second) :
    Completes computation fun value => first value ∧ second value := by
  apply (complete.and_all fun _ : Unit => always).mono
  rintro value ⟨holds, further⟩
  exact ⟨holds, further ()⟩

/-- Another reason for a failure is of no account where there is none. -/
theorem adapt {property : α -> Prop} {computation : ExceptT ε Checked α} (reason : ε -> δ)
    (given : Completes computation property) :
    Completes (computation.adapt reason) property := by
  have mapped : (computation.adapt reason).run =
      computation.run >>= fun outcome => Pure.pure (outcome.mapError reason) := rfl
  unfold Completes Ends
  rw [mapped]
  apply Succeeds.bind given
  rintro outcome ⟨value, rfl, holds⟩
  exact Succeeds.pure ⟨value, rfl, holds⟩

end Completes
end SymbolicMachine
