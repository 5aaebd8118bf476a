import Mathlib.Tactic.Ring
import SymbolicMachine.Proofs.Interpretation
import SymbolicMachine.Word.Lemmas

namespace SymbolicMachine

/-!
# Arithmetic of words under an interpretation

A word denotes a number of a given width if all of its bits are read and their
values are the binary digits of that number.  Every word operation then denotes the
corresponding operation on numbers, modulo the width where it drops what does not
fit, and operands of one width are never a misuse.

The statements hold for every interpretation, so they cover valuations of all
variables and evaluation under assignments alike, and they put no bound on the width.
-/

namespace Word

/-! ## Binary digits -/

theorem ofBools_lt (bits : List Bool) : ofBools bits < 2 ^ bits.length := by
  induction bits with
  | nil => simp [ofBools]
  | cons bit rest ih =>
      have lowest : bit.toNat ≤ 1 := Bool.toNat_le bit
      simp only [ofBools, List.length_cons, Nat.pow_succ]
      omega

theorem ofBools_append (low high : List Bool) :
    ofBools (low ++ high) = ofBools low + 2 ^ low.length * ofBools high := by
  induction low with
  | nil => simp [ofBools]
  | cons bit rest ih =>
      simp only [List.cons_append, ofBools, ih, List.length_cons, Nat.pow_succ]
      rw [Nat.mul_add, Nat.mul_comm (2 ^ rest.length) 2, Nat.mul_assoc, Nat.add_assoc]

theorem ofBools_replicate_false (count : Nat) : ofBools (List.replicate count false) = 0 := by
  induction count with
  | zero => rfl
  | succ count ih => simp [List.replicate_succ, ofBools, ih]

theorem ofBools_take (bits : List Bool) (count : Nat) :
    ofBools (bits.take count) = ofBools bits % 2 ^ count := by
  by_cases short : bits.length ≤ count
  · have bound : ofBools bits < 2 ^ count :=
      Nat.lt_of_lt_of_le (ofBools_lt bits) (Nat.pow_le_pow_right (by omega) short)
    rw [List.take_of_length_le short, Nat.mod_eq_of_lt bound]
  · have split := ofBools_append (bits.take count) (bits.drop count)
    have length : (bits.take count).length = count := by
      rw [List.length_take]
      omega
    have bound := ofBools_lt (bits.take count)
    rw [length] at bound split
    rw [List.take_append_drop] at split
    rw [split, Nat.add_mul_mod_self_left, Nat.mod_eq_of_lt bound]

/-- The lowest digit is what halving drops. -/
theorem ofBools_cons_div_two (bit : Bool) (rest : List Bool) :
    ofBools (bit :: rest) / 2 = ofBools rest := by
  have lowest : bit.toNat ≤ 1 := Bool.toNat_le bit
  simp only [ofBools]
  omega

theorem ofBools_drop (bits : List Bool) (count : Nat) :
    ofBools (bits.drop count) = ofBools bits / 2 ^ count := by
  induction count generalizing bits with
  | zero => simp
  | succ count ih =>
      cases bits with
      | nil => simp [ofBools]
      | cons bit rest =>
          rw [List.drop_succ_cons, ih, Nat.pow_succ', ← Nat.div_div_eq_div_mul,
            ofBools_cons_div_two]

theorem ofBools_testBit (number width : Nat) :
    ofBools ((List.range width).map number.testBit) = number % 2 ^ width := by
  induction width generalizing number with
  | zero => simp [ofBools, Nat.mod_one]
  | succ width ih =>
      have shifted : (List.range width).map (number.testBit ∘ Nat.succ) =
          (List.range width).map (number / 2).testBit :=
        List.map_congr_left fun index _ => Nat.testBit_succ number index
      have lowest : (number.testBit 0).toNat = number % 2 := by
        rw [Nat.testBit_zero]
        rcases Nat.mod_two_eq_zero_or_one number with even | odd <;> simp [*]
      rw [List.range_succ_eq_map, List.map_cons, List.map_map, shifted, ofBools, ih, lowest,
        Nat.pow_succ', Nat.mod_mul]

theorem ofBools_not (bits : List Bool) :
    ofBools (bits.map (!·)) + ofBools bits + 1 = 2 ^ bits.length := by
  induction bits with
  | nil => rfl
  | cons bit rest ih =>
      have digits : (!bit).toNat + bit.toNat = 1 := by cases bit <;> rfl
      simp only [List.map_cons, ofBools, List.length_cons, Nat.pow_succ]
      omega

theorem ofBools_injective {left right : List Bool} (width : left.length = right.length)
    (same : ofBools left = ofBools right) : left = right := by
  induction left generalizing right with
  | nil => exact (List.length_eq_zero_iff.mp width.symm).symm
  | cons bit rest ih =>
      cases right with
      | nil => cases width
      | cons other tail =>
          have tailWidth : rest.length = tail.length := Nat.succ.inj width
          simp only [ofBools] at same
          have lowest := Bool.toNat_le bit
          have otherLowest := Bool.toNat_le other
          have sameBit : bit = other := by
            cases bit <;> cases other <;> simp_all <;> omega
          have sameRest : rest = tail := ih tailWidth (by omega)
          rw [sameBit, sameRest]

/-- The digits of a number give back the bits that it was made of. -/
theorem map_testBit_ofBools (bits : List Bool) :
    (List.range bits.length).map (ofBools bits).testBit = bits := by
  apply ofBools_injective
  · rw [List.length_map, List.length_range]
  · rw [ofBools_testBit, Nat.mod_eq_of_lt (ofBools_lt bits)]

end Word

/-! ## Denotation -/

namespace Interpretation

variable (I : Interpretation)

/-- All bits of a word are read, and their values are the binary digits of a number
of the given width. -/
def Denotes (width : Nat) (word : Word) (number : Nat) : Prop :=
  ∃ values, List.Forall₂ I.Reads word.bits values ∧ values.length = width ∧
    Word.ofBools values = number

variable {I} {width n m : Nat} {left right word : Word}

namespace Denotes

theorem width_eq (denotes : I.Denotes width word n) : word.width = width := by
  rcases denotes with ⟨values, reads, length, _⟩
  exact reads.length_eq.trans length

theorem lt (denotes : I.Denotes width word n) : n < 2 ^ width := by
  rcases denotes with ⟨values, _, rfl, rfl⟩
  exact Word.ofBools_lt values

theorem same_width (leftDenotes : I.Denotes width left n) (rightDenotes : I.Denotes width right m) :
    left.width = right.width :=
  leftDenotes.width_eq.trans rightDenotes.width_eq.symm

end Denotes

theorem eq_of_reads {bits : List Bit} {first second : List Bool}
    (firstReads : List.Forall₂ I.Reads bits first)
    (secondReads : List.Forall₂ I.Reads bits second) : first = second := by
  induction firstReads generalizing second with
  | nil => exact (List.forall₂_nil_left_iff.mp secondReads).symm
  | cons head tail ih =>
      cases secondReads with
      | cons otherHead otherTail => rw [head.unique otherHead, ih otherTail]

theorem Denotes.unique (first : I.Denotes width word n) (second : I.Denotes width word m) :
    n = m := by
  rcases first with ⟨values, reads, _, rfl⟩
  rcases second with ⟨others, otherReads, _, rfl⟩
  rw [eq_of_reads reads otherReads]

theorem eq_of_identical_reads {xs ys : List Bit} {us vs : List Bool}
    (same : (xs.zip ys).all (fun (x, y) => x.identical y) = true)
    (xsRead : List.Forall₂ I.Reads xs us) (ysRead : List.Forall₂ I.Reads ys vs)
    (length : us.length = vs.length) : us = vs := by
  induction xsRead generalizing ys vs with
  | nil => exact (List.length_eq_zero_iff.mp length.symm).symm
  | cons head tail ih =>
      cases ysRead with
      | nil => cases length
      | cons otherHead otherTail =>
          simp only [List.zip_cons_cons, List.all_cons, Bool.and_eq_true] at same
          rw [I.identical same.1 head otherHead, ih same.2 otherTail (Nat.succ.inj length)]

/-- Recognisably identical words denote one number. -/
theorem Denotes.eq_of_identical (same : left.identical right = true)
    (leftDenotes : I.Denotes width left n) (rightDenotes : I.Denotes width right m) : n = m := by
  rcases leftDenotes with ⟨us, leftReads, leftLength, rfl⟩
  rcases rightDenotes with ⟨vs, rightReads, rightLength, rfl⟩
  have bits := (Bool.and_eq_true_iff.mp same).2
  rw [eq_of_identical_reads bits leftReads rightReads (leftLength.trans rightLength.symm)]

/-! ## Words without gates -/

theorem reads_literals (values : List Bool) :
    List.Forall₂ I.Reads (values.map .literal) values :=
  List.forall₂_map_left_iff.mpr (List.forall₂_same.mpr fun value _ => reads_literal value)

theorem reads_zeros (count : Nat) :
    List.Forall₂ I.Reads (List.replicate count Bit.zero) (List.replicate count false) := by
  have literals := reads_literals (I := I) (List.replicate count false)
  rwa [List.map_replicate] at literals

theorem denotes_constant (number width : Nat) :
    I.Denotes width (.constant number width) (number % 2 ^ width) := by
  refine ⟨(List.range width).map number.testBit, ?_, by simp, Word.ofBools_testBit number width⟩
  have literals := reads_literals (I := I) ((List.range width).map number.testBit)
  rwa [List.map_map] at literals

theorem denotes_constant_of_lt {number width : Nat} (bound : number < 2 ^ width) :
    I.Denotes width (.constant number width) number := by
  have denotes : I.Denotes width (.constant number width) _ := denotes_constant number width
  rwa [Nat.mod_eq_of_lt bound] at denotes

theorem denotes_zero (width : Nat) : I.Denotes width (.zero width) 0 :=
  ⟨List.replicate width false, reads_zeros width, List.length_replicate,
    Word.ofBools_replicate_false width⟩

theorem Denotes.zeroExtend (denotes : I.Denotes width word n) (amount : Nat) :
    I.Denotes (width + amount) (word.zeroExtend amount) n := by
  rcases denotes with ⟨values, reads, length, rfl⟩
  refine ⟨values ++ List.replicate amount false, List.rel_append reads (reads_zeros amount), ?_, ?_⟩
  · rw [List.length_append, List.length_replicate, length]
  · rw [Word.ofBools_append, Word.ofBools_replicate_false, Nat.mul_zero, Nat.add_zero]

theorem Denotes.shiftLeft (denotes : I.Denotes width word n) (amount : Nat) :
    I.Denotes width (word.shiftLeft amount) (n * 2 ^ amount % 2 ^ width) := by
  have wordWidth := denotes.width_eq
  rcases denotes with ⟨values, reads, length, rfl⟩
  refine ⟨List.replicate (min amount width) false ++ values.take (width - amount), ?_, ?_, ?_⟩
  · unfold Word.shiftLeft
    rw [wordWidth]
    exact List.rel_append (reads_zeros _) (List.forall₂_take _ reads)
  · rw [List.length_append, List.length_replicate, List.length_take]
    omega
  · rw [Word.ofBools_append, Word.ofBools_replicate_false, List.length_replicate,
      Word.ofBools_take, Nat.zero_add]
    by_cases inside : amount ≤ width
    · have split : 2 ^ width = 2 ^ amount * 2 ^ (width - amount) := by
        rw [← Nat.pow_add, Nat.add_sub_cancel' inside]
      rw [Nat.min_eq_left inside, Nat.mul_comm (Word.ofBools values), split, Nat.mul_mod_mul_left]
    · have beyond : width ≤ amount := by omega
      rw [Nat.min_eq_right beyond, Nat.sub_eq_zero_of_le beyond, Nat.pow_zero, Nat.mod_one,
        Nat.mul_zero]
      have multiple : 2 ^ width ∣ Word.ofBools values * 2 ^ amount :=
        Nat.dvd_mul_left_of_dvd (Nat.pow_dvd_pow 2 beyond) _
      exact (Nat.mod_eq_zero_of_dvd multiple).symm

theorem Denotes.shiftRight (denotes : I.Denotes width word n) (amount : Nat) :
    I.Denotes width (word.shiftRight amount) (n / 2 ^ amount) := by
  have wordWidth := denotes.width_eq
  rcases denotes with ⟨values, reads, length, rfl⟩
  refine ⟨values.drop amount ++ List.replicate (min amount width) false, ?_, ?_, ?_⟩
  · unfold Word.shiftRight
    rw [wordWidth]
    exact List.rel_append (List.forall₂_drop _ reads) (reads_zeros _)
  · rw [List.length_append, List.length_replicate, List.length_drop]
    omega
  · rw [Word.ofBools_append, Word.ofBools_replicate_false, Nat.mul_zero, Nat.add_zero,
      Word.ofBools_drop]

/-- A rotation moves every digit down, puts the carry on top and hands the lowest
digit out. -/
theorem Denotes.rotateRight {carry : Bit} {c : Bool} (denotes : I.Denotes (width + 1) word n)
    (carryReads : I.Reads carry c) :
    Succeeds (word.rotateRight carry) fun result =>
      I.Denotes (width + 1) result.1 (n / 2 + 2 ^ width * c.toNat) ∧
      I.Reads result.2 (n.testBit 0) := by
  rcases denotes with ⟨values, reads, length, rfl⟩
  unfold Word.rotateRight
  cases values with
  | nil => cases length
  | cons lowest rest =>
      have restLength : rest.length = width := Nat.succ.inj length
      generalize word.bits = bits at reads
      cases reads with
      | cons head tail =>
          refine .pure ⟨⟨rest ++ [c], List.rel_append tail (.cons carryReads .nil), ?_, ?_⟩, ?_⟩
          · rw [List.length_append, restLength]
            rfl
          · rw [Word.ofBools_append, restLength, Word.ofBools_cons_div_two]
            simp [Word.ofBools]
          · have parity : Nat.testBit (Word.ofBools (lowest :: rest)) 0 = lowest := by
              rw [Nat.testBit_zero]
              cases lowest <;> simp [Word.ofBools, Nat.add_mod]
            rw [parity]
            exact head

/-! ## Bitwise operations -/

theorem succeeds_paired (same : left.width = right.width) :
    Succeeds (Word.paired left right) fun pairs => pairs = left.bits.zip right.bits := by
  refine (Succeeds.require ?_).bind fun _ _ => .pure rfl
  exact beq_iff_eq.mpr same

theorem Denotes.not (denotes : I.Denotes width word n) :
    Gives word.not fun result => I.Denotes width result (2 ^ width - 1 - n) := by
  rcases denotes with ⟨values, reads, rfl, rfl⟩
  have flipped : List.Forall₂ (fun bit value => I.Reads bit (!value)) word.bits
      (values.map (!·)) := by
    rw [List.forall₂_map_right_iff]
    exact reads.imp fun _ _ holds => by rwa [Bool.not_not]
  refine (Gives.mapM flipped fun bit value holds => holds.not).bind fun bits bitsRead => ?_
  simp only [Bool.not_not] at bitsRead
  refine .pure ⟨values.map (!·), bitsRead, List.length_map _, ?_⟩
  have total := Word.ofBools_not values
  omega

/-- Words combined place by place read as their values combined place by place. -/
theorem reads_combine {connective : Bit -> Bit -> Build Bit} {operation : Bool -> Bool -> Bool}
    (one : ∀ {x y u v}, I.Reads x u -> I.Reads y v ->
      Gives (connective x y) fun result => I.Reads result (operation u v))
    {xs ys : List Bit} {us vs : List Bool}
    (xsRead : List.Forall₂ I.Reads xs us) (ysRead : List.Forall₂ I.Reads ys vs) :
    Gives (Word.combine connective (xs.zip ys)) fun results =>
      List.Forall₂ I.Reads results (List.zipWith operation us vs) := by
  induction xsRead generalizing ys vs with
  | nil => exact .pure .nil
  | cons head tail ih =>
      cases ysRead with
      | nil => exact .pure .nil
      | cons otherHead otherTail =>
          simp only [Word.combine, List.zip_cons_cons, List.mapM_cons]
          refine (one head otherHead).bind fun result holds => ?_
          exact (ih otherTail).bind fun results tailHolds => .pure (.cons holds tailHolds)

theorem zipWith_choice (c : Bool) {us vs : List Bool} (length : us.length = vs.length) :
    List.zipWith (fun u v => if c then u else v) us vs = if c then us else vs := by
  induction us generalizing vs with
  | nil =>
      rw [List.length_eq_zero_iff.mp length.symm, ite_self]
      rfl
  | cons u us ih =>
      cases vs with
      | nil => cases length
      | cons v vs =>
          rw [List.zipWith_cons_cons, ih (Nat.succ.inj length)]
          cases c <;> rfl

theorem Denotes.select {condition : Bit} {c : Bool} (conditionReads : I.Reads condition c)
    (leftDenotes : I.Denotes width left n) (rightDenotes : I.Denotes width right m) :
    Succeeds (Word.select condition left right) fun result =>
      I.Denotes width result (if c then n else m) := by
  have sameWidth := leftDenotes.same_width rightDenotes
  rcases leftDenotes with ⟨us, leftReads, leftLength, rfl⟩
  rcases rightDenotes with ⟨vs, rightReads, rightLength, rfl⟩
  refine (succeeds_paired sameWidth).bind fun pairs paired => ?_
  subst paired
  refine (Succeeds.lift (reads_combine (fun whenTrue whenFalse =>
    conditionReads.select whenTrue whenFalse) leftReads rightReads)).bind fun bits bitsRead => ?_
  refine .pure ?_
  rw [zipWith_choice c (leftLength.trans rightLength.symm)] at bitsRead
  cases c with
  | true => exact ⟨us, bitsRead, leftLength, rfl⟩
  | false => exact ⟨vs, bitsRead, rightLength, rfl⟩

/-! ## Comparison -/

theorem reads_allEqual {accumulator : Bit} {e : Bool} {xs ys : List Bit} {us vs : List Bool}
    (accumulated : I.Reads accumulator e) (xsRead : List.Forall₂ I.Reads xs us)
    (ysRead : List.Forall₂ I.Reads ys vs) (length : us.length = vs.length) :
    Gives ((xs.zip ys).foldlM (fun equal (x, y) => do equal.and (← x.equals y)) accumulator)
      fun result => I.Reads result (e && us == vs) := by
  induction xsRead generalizing ys vs accumulator e with
  | nil =>
      rw [List.length_eq_zero_iff.mp length.symm] at *
      refine .pure ?_
      rw [beq_self_eq_true, Bool.and_true]
      exact accumulated
  | @cons x u xs us head tail ih =>
      cases ysRead with
      | nil => cases length
      | @cons y v ys vs otherHead otherTail =>
          simp only [List.zip_cons_cons, List.foldlM_cons, bind_assoc]
          refine (head.equals otherHead).bind fun same sameReads => ?_
          refine (accumulated.and sameReads).bind fun next nextReads => ?_
          refine (ih nextReads otherTail (Nat.succ.inj length)).mono fun result resultReads => ?_
          rwa [List.cons_beq_cons, ← Bool.and_assoc]

theorem Denotes.equals (leftDenotes : I.Denotes width left n)
    (rightDenotes : I.Denotes width right m) :
    Succeeds (left.equals right) fun result => I.Reads result (decide (n = m)) := by
  have sameWidth := leftDenotes.same_width rightDenotes
  rcases leftDenotes with ⟨us, leftReads, leftLength, rfl⟩
  rcases rightDenotes with ⟨vs, rightReads, rightLength, rfl⟩
  have length : us.length = vs.length := leftLength.trans rightLength.symm
  refine (succeeds_paired sameWidth).bind fun pairs paired => ?_
  subst paired
  refine Succeeds.lift ?_
  refine (reads_allEqual (reads_literal true) leftReads rightReads length).mono
    fun result resultReads => ?_
  have meaning : (us == vs) = decide (Word.ofBools us = Word.ofBools vs) := by
    rw [Bool.eq_iff_iff, beq_iff_eq, decide_eq_true_iff]
    exact ⟨congrArg Word.ofBools, Word.ofBools_injective length⟩
  rwa [meaning] at resultReads

theorem Denotes.differs (leftDenotes : I.Denotes width left n)
    (rightDenotes : I.Denotes width right m) :
    Succeeds (left.differs right) fun result => I.Reads result (decide (n ≠ m)) := by
  refine (leftDenotes.equals rightDenotes).bind fun equal equalReads => ?_
  refine Succeeds.lift (equalReads.not.mono fun result resultReads => ?_)
  rwa [decide_not]

/-- The verdict on the places so far is a borrow for those to come, so a comparison that starts
with a verdict asks whether one number is smaller than the other and the borrow together. -/
theorem reads_rippleLess {accumulator : Bit} {verdict : Bool} {xs ys : List Bit}
    {us vs : List Bool} (accumulated : I.Reads accumulator verdict)
    (xsRead : List.Forall₂ I.Reads xs us) (ysRead : List.Forall₂ I.Reads ys vs)
    (length : us.length = vs.length) :
    Gives ((xs.zip ys).foldlM (fun less (x, y) => do
        let differs ← (← x.equals y).not
        let smaller ← (← x.not).and y
        differs.select smaller less) accumulator)
      fun result => I.Reads result
        (decide (Word.ofBools us < Word.ofBools vs + verdict.toNat)) := by
  induction xsRead generalizing ys vs accumulator verdict with
  | nil =>
      rw [List.length_eq_zero_iff.mp length.symm] at *
      refine .pure ?_
      cases verdict <;> exact accumulated
  | @cons x u xs us head tail ih =>
      cases ysRead with
      | nil => cases length
      | @cons y v ys vs otherHead otherTail =>
          simp only [List.zip_cons_cons, List.foldlM_cons, bind_assoc]
          refine (head.equals otherHead).bind fun same sameReads => ?_
          refine sameReads.not.bind fun differs differsReads => ?_
          refine head.not.bind fun noHead noHeadReads => ?_
          refine (noHeadReads.and otherHead).bind fun smaller smallerReads => ?_
          refine (differsReads.select smallerReads accumulated).bind fun next nextReads => ?_
          refine (ih nextReads otherTail (Nat.succ.inj length)).mono fun result resultReads => ?_
          have place := Word.place_lt_iff u v verdict (Word.ofBools us) (Word.ofBools vs)
          rwa [Word.ofBools, Word.ofBools, decide_eq_decide.mpr place]

theorem Denotes.lessThan (leftDenotes : I.Denotes width left n)
    (rightDenotes : I.Denotes width right m) :
    Succeeds (left.lessThan right) fun result => I.Reads result (decide (n < m)) := by
  have sameWidth := leftDenotes.same_width rightDenotes
  rcases leftDenotes with ⟨us, leftReads, leftLength, rfl⟩
  rcases rightDenotes with ⟨vs, rightReads, rightLength, rfl⟩
  refine (succeeds_paired sameWidth).bind fun pairs paired => ?_
  subst paired
  exact Succeeds.lift (reads_rippleLess (reads_literal false) leftReads rightReads
    (leftLength.trans rightLength.symm))

/-! ## Addition -/

/-- The sum bits together with the carry that leaves, taken one place above them, are
the sum of both numbers and of the carry that enters. -/
theorem reads_rippleAdd {carry : Bit} {c : Bool} {xs ys : List Bit} {us vs : List Bool}
    (carryReads : I.Reads carry c) (xsRead : List.Forall₂ I.Reads xs us)
    (ysRead : List.Forall₂ I.Reads ys vs) (length : us.length = vs.length) :
    Gives (Word.rippleAdd carry (xs.zip ys)) fun result =>
      ∃ sums last, List.Forall₂ I.Reads result.1 sums ∧ I.Reads result.2 last ∧
        sums.length = us.length ∧
        Word.ofBools sums + 2 ^ us.length * last.toNat =
          Word.ofBools us + Word.ofBools vs + c.toNat := by
  induction xsRead generalizing ys vs carry c with
  | nil =>
      rw [List.length_eq_zero_iff.mp length.symm]
      exact .pure ⟨[], c, .nil, carryReads, rfl, by simp [Word.ofBools]⟩
  | @cons x u xs us head tail ih =>
      cases ysRead with
      | nil => cases length
      | @cons y v ys vs otherHead otherTail =>
          rw [List.zip_cons_cons, Word.rippleAdd]
          refine (head.xor otherHead).bind fun halfSum halfSumReads => ?_
          refine (halfSumReads.xor carryReads).bind fun sum sumReads => ?_
          refine (head.and otherHead).bind fun generated generatedReads => ?_
          refine (head.xor otherHead).bind fun propagates propagatesReads => ?_
          refine (carryReads.and propagatesReads).bind fun propagated propagatedReads => ?_
          refine (generatedReads.or propagatedReads).bind fun next nextReads => ?_
          refine (ih nextReads otherTail (Nat.succ.inj length)).bind fun result higher => ?_
          rcases higher with ⟨sums, last, sumsRead, lastReads, sumsLength, total⟩
          refine .pure ⟨_ :: sums, last, .cons sumReads sumsRead, lastReads, ?_, ?_⟩
          · rw [List.length_cons, List.length_cons, sumsLength]
          · have place := Word.toNat_xor_add_carry u v c
            have doubled : 2 ^ us.length * 2 * last.toNat = 2 * (2 ^ us.length * last.toNat) := by
              rw [Nat.mul_comm (2 ^ us.length) 2, Nat.mul_assoc]
            simp only [Word.ofBools, List.length_cons, Nat.pow_succ]
            omega

/-- A sum together with the carry that leaves it is the exact sum. -/
theorem Denotes.addWithCarry_total {carry : Bit} {c : Bool} (leftDenotes : I.Denotes width left n)
    (rightDenotes : I.Denotes width right m) (carryReads : I.Reads carry c) :
    Succeeds (left.addWithCarry right carry) fun result => ∃ sum last,
      I.Denotes width result.1 sum ∧ I.Reads result.2 last ∧
      sum + 2 ^ width * last.toNat = n + m + c.toNat := by
  have sameWidth := leftDenotes.same_width rightDenotes
  rcases leftDenotes with ⟨us, leftReads, rfl, rfl⟩
  rcases rightDenotes with ⟨vs, rightReads, rightLength, rfl⟩
  refine (succeeds_paired sameWidth).bind fun pairs paired => ?_
  subst paired
  refine (Succeeds.lift (reads_rippleAdd carryReads leftReads rightReads
    rightLength.symm)).bind fun result outcome => ?_
  rcases outcome with ⟨sums, last, sumsRead, lastReads, sumsLength, total⟩
  exact .pure ⟨_, last, ⟨sums, sumsRead, sumsLength, rfl⟩, lastReads, total⟩

/-- A sum with its carry is what is left over and whether something is. -/
theorem sum_and_carry {bound sum total : Nat} {last : Bool} (small : sum < bound)
    (whole : sum + bound * last.toNat = total) (fits : total < 2 * bound) :
    sum = total % bound ∧ last = decide (bound ≤ total) := by
  cases last with
  | false =>
      rw [Bool.toNat_false, Nat.mul_zero, Nat.add_zero] at whole
      subst whole
      exact ⟨(Nat.mod_eq_of_lt small).symm, (decide_eq_false (by omega)).symm⟩
  | true =>
      rw [Bool.toNat_true, Nat.mul_one] at whole
      subst whole
      refine ⟨?_, (decide_eq_true (by omega)).symm⟩
      rw [Nat.add_mod_right, Nat.mod_eq_of_lt small]

theorem Denotes.addWithCarry {carry : Bit} {c : Bool} (leftDenotes : I.Denotes width left n)
    (rightDenotes : I.Denotes width right m) (carryReads : I.Reads carry c) :
    Succeeds (left.addWithCarry right carry) fun result =>
      I.Denotes width result.1 ((n + m + c.toNat) % 2 ^ width) ∧
      I.Reads result.2 (decide (2 ^ width ≤ n + m + c.toNat)) := by
  have leftBound := leftDenotes.lt
  have rightBound := rightDenotes.lt
  have carryBound := Bool.toNat_le c
  apply (leftDenotes.addWithCarry_total rightDenotes carryReads).mono
  rintro result ⟨sum, last, sumDenotes, lastReads, total⟩
  have parts := sum_and_carry sumDenotes.lt total (by omega)
  rw [← parts.1, ← parts.2]
  exact ⟨sumDenotes, lastReads⟩

theorem Denotes.add (leftDenotes : I.Denotes width left n) (rightDenotes : I.Denotes width right m) :
    Succeeds (left.add right) fun result => I.Denotes width result ((n + m) % 2 ^ width) := by
  refine (leftDenotes.addWithCarry rightDenotes (reads_literal false)).bind
    fun result outcome => .pure ?_
  simpa using outcome.1

theorem Denotes.sub (leftDenotes : I.Denotes width left n) (rightDenotes : I.Denotes width right m) :
    Succeeds (left.sub right) fun result =>
      I.Denotes width result ((n + (2 ^ width - m)) % 2 ^ width) := by
  refine (Succeeds.lift rightDenotes.not).bind fun inverted invertedDenotes => ?_
  refine (leftDenotes.addWithCarry invertedDenotes (reads_literal true)).bind
    fun result outcome => .pure ?_
  have bound := rightDenotes.lt
  have complement : n + (2 ^ width - 1 - m) + true.toNat = n + (2 ^ width - m) := by
    rw [Bool.toNat_true]
    omega
  rw [← complement]
  exact outcome.1

/-! ## Multiplication -/

theorem Denotes.addPartialProduct {multiplicand product : Word} {selector : Bit} {s : Bool}
    (multiplicandDenotes : I.Denotes width multiplicand n)
    (productDenotes : I.Denotes width product m) (selectorReads : I.Reads selector s)
    (place : Nat) :
    Gives (Word.addPartialProduct multiplicand product selector place) fun result =>
      I.Denotes width result ((m + n * 2 ^ place * s.toNat) % 2 ^ width) := by
  obtain ⟨shifted, shiftedReads, shiftedLength, shiftedValue⟩ :=
    multiplicandDenotes.shiftLeft place
  rcases productDenotes with ⟨us, productReads, productLength, rfl⟩
  have oneTerm : ∀ bit value, I.Reads bit value ->
      Gives (selector.select bit .zero) fun result => I.Reads result (if s then value else false) :=
    fun bit value reads => selectorReads.select reads (reads_literal false)
  refine (Gives.mapM shiftedReads oneTerm).bind fun terms termsRead => ?_
  have termValues : List.Forall₂ I.Reads terms
      (shifted.map fun value => if s then value else false) :=
    List.forall₂_map_right_iff.mpr termsRead
  have length : us.length = (shifted.map fun value => if s then value else false).length := by
    rw [List.length_map, productLength, shiftedLength]
  refine (reads_rippleAdd (reads_literal false) productReads termValues length).bind
    fun result outcome => .pure ?_
  rcases outcome with ⟨sums, last, sumsRead, _, sumsLength, total⟩
  refine ⟨sums, sumsRead, sumsLength.trans productLength, ?_⟩
  have sumBound : Word.ofBools sums < 2 ^ width := by
    have bound := Word.ofBools_lt sums
    rwa [sumsLength, productLength] at bound
  have termNumber : Word.ofBools (shifted.map fun value => if s then value else false) =
      n * 2 ^ place * s.toNat % 2 ^ width := by
    cases s with
    | true => simpa using shiftedValue
    | false => simp [List.map_const', Word.ofBools_replicate_false]
  rw [productLength, termNumber, Bool.toNat_false, Nat.add_zero] at total
  calc
    Word.ofBools sums = (Word.ofBools sums + 2 ^ width * last.toNat) % 2 ^ width := by
      rw [Nat.add_mul_mod_self_left, Nat.mod_eq_of_lt sumBound]
    _ = (Word.ofBools us + n * 2 ^ place * s.toNat) % 2 ^ width := by
      rw [total, Nat.add_mod_mod]

theorem Denotes.addPartialProducts {multiplicand : Word}
    (multiplicandDenotes : I.Denotes width multiplicand n) {selectors : List Bit}
    {values : List Bool} (selectorsRead : List.Forall₂ I.Reads selectors values) :
    ∀ {product : Word} {m : Nat} (place : Nat), I.Denotes width product m ->
      Gives (Word.addPartialProducts multiplicand product place selectors) fun result =>
        I.Denotes width result ((m + n * 2 ^ place * Word.ofBools values) % 2 ^ width) := by
  induction selectorsRead with
  | nil =>
      intro product m place productDenotes
      refine .pure ?_
      rw [Word.ofBools, Nat.mul_zero, Nat.add_zero, Nat.mod_eq_of_lt productDenotes.lt]
      exact productDenotes
  | @cons selector value selectors values head tail ih =>
      intro product m place productDenotes
      refine (multiplicandDenotes.addPartialProduct productDenotes head place).bind
        fun next nextDenotes => ?_
      refine (ih (place + 1) nextDenotes).mono fun result resultDenotes => ?_
      have distributed : m + n * 2 ^ place * Word.ofBools (value :: values) =
          m + n * 2 ^ place * value.toNat + n * 2 ^ (place + 1) * Word.ofBools values := by
        simp only [Word.ofBools, Nat.pow_succ]
        ring
      rwa [distributed, ← Nat.mod_add_mod]

theorem Denotes.mul (leftDenotes : I.Denotes width left n) (rightDenotes : I.Denotes width right m) :
    Succeeds (left.mul right) fun result => I.Denotes width result (n * m % 2 ^ width) := by
  have sameWidth := leftDenotes.same_width rightDenotes
  rcases rightDenotes with ⟨values, rightReads, _, rfl⟩
  refine (Succeeds.require (beq_iff_eq.mpr sameWidth)).bind fun _ _ => Succeeds.lift ?_
  rw [leftDenotes.width_eq]
  refine (leftDenotes.addPartialProducts rightReads 0 (denotes_zero width)).mono
    fun result resultDenotes => ?_
  simpa using resultDenotes

/-- A word of twice the width has room for every product. -/
theorem Denotes.mul_zeroExtend (leftDenotes : I.Denotes width left n)
    (rightDenotes : I.Denotes width right m) :
    Succeeds ((left.zeroExtend width).mul (right.zeroExtend width)) fun result =>
      I.Denotes (width + width) result (n * m) := by
  have exact : n * m % 2 ^ (width + width) = n * m := by
    rw [Nat.pow_add]
    exact Nat.mod_eq_of_lt (Nat.mul_lt_mul'' leftDenotes.lt rightDenotes.lt)
  have widened := (leftDenotes.zeroExtend width).mul (rightDenotes.zeroExtend width)
  rwa [exact] at widened

/-! ## Values and evaluation -/

theorem denotes_value (valuation : Nat -> Bool) (word : Word) :
    (ofValuation valuation).Denotes word.width word (word.value valuation) := by
  refine ⟨word.bits.map (Bit.eval valuation), ?_, List.length_map _, rfl⟩
  exact List.forall₂_map_right_iff.mpr (List.forall₂_same.mpr fun bit _ => rfl)

theorem reads_of_covers {assignment : Assignment} {bit : Bit}
    (covers : assignment.Covers bit.support) :
    (ofAssignment assignment).Reads bit (bit.eval assignment.valuation) :=
  Bit.eval?_of_covers covers

theorem denotes_of_covers {assignment : Assignment} {word : Word}
    (hasWidth : word.width = width) (covers : assignment.Covers word.support) :
    (ofAssignment assignment).Denotes width word (word.value assignment.valuation) := by
  refine ⟨word.bits.map (Bit.eval assignment.valuation), ?_, ?_, rfl⟩
  · apply List.forall₂_map_right_iff.mpr
    apply List.forall₂_same.mpr
    intro bit member
    exact reads_of_covers (Assignment.covers_flatMap.mp covers bit member)
  · rw [List.length_map]
    exact hasWidth

/-- What a word denotes is the number made of the values of its bits. -/
theorem valueBy?_eq_some_iff (narrow : word.width ≤ Word.knownBits) :
    word.valueBy? I.value? = some n ↔ I.Denotes word.width word n := by
  rw [Word.valueBy?, if_pos narrow, Option.map_eq_some_iff]
  constructor
  · rintro ⟨values, found, same⟩
    have reads := mapM_eq_some_iff.mp found
    exact ⟨values, reads, reads.length_eq.symm, same⟩
  · rintro ⟨values, reads, _, same⟩
    exact ⟨values, mapM_eq_some_iff.mpr reads, same⟩

/-- What a word denotes under an assignment is what an evaluator answers. -/
theorem evaluateWord_eq_some_iff {assignment : Assignment} (narrow : word.width ≤ Word.knownBits) :
    assignment.evaluateWord word = some n ↔
      (ofAssignment assignment).Denotes word.width word n := by
  rw [Assignment.evaluateWord_eq]
  exact valueBy?_eq_some_iff (I := ofAssignment assignment) narrow

theorem Denotes.evaluateWord {assignment : Assignment}
    (denotes : (ofAssignment assignment).Denotes width word n)
    (narrow : width ≤ Word.knownBits) : assignment.evaluateWord word = some n := by
  have hasWidth := denotes.width_eq
  subst hasWidth
  exact (evaluateWord_eq_some_iff narrow).mpr denotes

/-- What a word denotes although variables may be open is its value however they are filled
in. -/
theorem Denotes.eq_value {assignment : Assignment} {valuation : Nat -> Bool}
    (extension : assignment.Extends valuation)
    (denotes : (ofAssignment assignment).Denotes width word n) : n = word.value valuation := by
  have valued := denotes_value valuation word
  rw [denotes.width_eq] at valued
  rcases denotes with ⟨values, reads, length, same⟩
  have filledIn : (ofValuation valuation).Denotes width word n := by
    refine ⟨values, reads.imp ?_, length, same⟩
    intro bit value found
    exact congrArg some (Bit.eval_of_eval? extension found)
  exact filledIn.unique valued

end Interpretation

/-- The bits of a word evaluate to the binary digits of a number of the given width, and
a word that is not too wide evaluates to that number. -/
structure Assignment.Finds (assignment : Assignment) (width : Nat) (word : Word)
    (number : Nat) : Prop where
  digits : word.bits.map assignment.evaluate =
    (List.range width).map fun place => some (number.testBit place)
  fits : number < 2 ^ width
  evaluated : assignment.evaluateWord word =
    if width ≤ Word.knownBits then some number else none

theorem map_evaluate_of_reads {assignment : Assignment} {bits : List Bit} {values : List Bool}
    (reads : List.Forall₂ (Interpretation.ofAssignment assignment).Reads bits values) :
    bits.map assignment.evaluate = values.map some := by
  induction reads with
  | nil => rfl
  | cons head tail ih =>
      rw [List.map_cons, List.map_cons, head.evaluate, ih]

theorem Interpretation.Denotes.finds {assignment : Assignment} {width number : Nat} {word : Word}
    (denotes : (Interpretation.ofAssignment assignment).Denotes width word number) :
    assignment.Finds width word number := by
  have bound := denotes.lt
  have evaluated : assignment.evaluateWord word =
      if width ≤ Word.knownBits then some number else none := by
    split
    · next narrow => exact denotes.evaluateWord narrow
    · next wide =>
        rw [Assignment.evaluateWord_eq, Word.eval?, Word.valueBy?,
          if_neg (denotes.width_eq ▸ wide)]
  rcases denotes with ⟨values, reads, rfl, rfl⟩
  refine ⟨?_, bound, evaluated⟩
  calc word.bits.map assignment.evaluate = values.map some := map_evaluate_of_reads reads
    _ = ((List.range values.length).map (Word.ofBools values).testBit).map some :=
        congrArg (List.map some) (Word.map_testBit_ofBools values).symm
    _ = _ := List.map_map

theorem Assignment.Finds.denotes {assignment : Assignment} {width number : Nat} {word : Word}
    (finds : assignment.Finds width word number) :
    (Interpretation.ofAssignment assignment).Denotes width word number := by
  refine ⟨(List.range width).map number.testBit, ?_, by simp, ?_⟩
  · have digits : word.bits.map assignment.evaluate =
        ((List.range width).map number.testBit).map some := finds.digits.trans List.map_map.symm
    rw [← List.forall₂_eq_eq_eq, List.forall₂_map_left_iff, List.forall₂_map_right_iff] at digits
    apply digits.imp
    intro bit value evaluated
    rwa [Assignment.evaluate_eq] at evaluated
  · rw [Word.ofBools_testBit, Nat.mod_eq_of_lt finds.fits]

end SymbolicMachine
