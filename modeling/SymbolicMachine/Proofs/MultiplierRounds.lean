import Mathlib.Tactic.Ring
import SymbolicMachine.Program.Multiplier
import SymbolicMachine.Proofs.MachineStep

namespace SymbolicMachine
namespace Multiplier

/-!
# The rounds of the multiplier

A processor that executes the multiplier goes through eight rounds.  In each of them the
first factor hands out its lowest bit, the second factor is added to the accumulator if
that bit is set, and accumulator and low word move down together, so that the lowest bit
of the sum enters the low word.

After some rounds the accumulator holds the product with the bits of the first factor seen
so far, without the bits that have left it.  These are the upper bits of the low word.  The
bits that the low word had at first leave it one by one and pass through the carry into
the first factor.
-/

/-! ## Words that move down -/

/-- A word whose low bits have left at the bottom, with the low bits of another number in
their stead at the top. -/
def shifted (leaving entering count : Nat) : Nat :=
  leaving / 2 ^ count + 2 ^ (8 - count) * (entering % 2 ^ count)

theorem shifted_zero (leaving entering : Nat) : shifted leaving entering 0 = leaving := by
  simp [shifted, Nat.mod_one]

theorem two_pow_complement {count : Nat} (small : count < 8) :
    2 ^ (8 - count) = 2 * 2 ^ (8 - (count + 1)) := by
  rw [← Nat.pow_succ']
  congr 1
  omega

theorem shifted_mod_two {count : Nat} (leaving entering : Nat) (small : count < 8) :
    shifted leaving entering count % 2 = leaving / 2 ^ count % 2 := by
  rw [shifted, two_pow_complement small, Nat.mul_assoc, Nat.add_mul_mod_self_left]

theorem shifted_succ {count : Nat} (leaving entering : Nat) (small : count < 8) :
    shifted leaving entering (count + 1) =
      shifted leaving entering count / 2 + 2 ^ 7 * (entering / 2 ^ count % 2) := by
  have place : 2 ^ (8 - (count + 1)) * 2 ^ count = 2 ^ 7 := by
    rw [← Nat.pow_add]
    congr 1
    omega
  have halved : leaving / 2 ^ (count + 1) = leaving / 2 ^ count / 2 := by
    rw [Nat.pow_succ, Nat.div_div_eq_div_mul]
  calc shifted leaving entering (count + 1)
      = leaving / 2 ^ count / 2 +
          (2 ^ (8 - (count + 1)) * (entering % 2 ^ count) +
            2 ^ (8 - (count + 1)) * 2 ^ count * (entering / 2 ^ count % 2)) := by
        rw [shifted, halved, Nat.mod_pow_succ, Nat.mul_add, Nat.mul_assoc]
    _ = shifted leaving entering count / 2 + 2 ^ 7 * (entering / 2 ^ count % 2) := by
        rw [place, shifted, two_pow_complement small, Nat.mul_assoc,
          Nat.add_mul_div_left _ _ (by decide), Nat.add_assoc]

theorem shifted_eight {leaving : Nat} (entering : Nat) (bound : leaving < 2 ^ 8) :
    shifted leaving entering 8 = entering % 2 ^ 8 := by
  rw [shifted, Nat.div_eq_of_lt bound, Nat.sub_self, Nat.pow_zero, Nat.one_mul, Nat.zero_add]

/-! ## The accumulator -/

/-- The product of the bits seen so far, without the bits that have left. -/
def accumulated (first second count : Nat) : Nat :=
  first % 2 ^ count * second / 2 ^ count

theorem accumulated_zero (first second : Nat) : accumulated first second 0 = 0 := by
  simp [accumulated, Nat.mod_one]

theorem accumulated_add (first second count : Nat) :
    accumulated first second count + first / 2 ^ count % 2 * second =
      first % 2 ^ (count + 1) * second / 2 ^ count := by
  have positive : 0 < 2 ^ count := Nat.pow_pos (by decide)
  rw [Nat.mod_pow_succ, Nat.add_mul, Nat.mul_assoc, Nat.add_mul_div_left _ _ positive, accumulated]

theorem accumulated_succ (first second count : Nat) :
    accumulated first second (count + 1) =
      (accumulated first second count + first / 2 ^ count % 2 * second) / 2 := by
  rw [accumulated_add, Nat.div_div_eq_div_mul, ← Nat.pow_succ, accumulated]

/-- The bit that leaves in a round is a bit of the whole product. -/
theorem accumulated_add_mod_two (first second count : Nat) :
    (accumulated first second count + first / 2 ^ count % 2 * second) % 2 =
      first * second / 2 ^ count % 2 := by
  have positive : 0 < 2 ^ count := Nat.pow_pos (by decide)
  -- the bits that have not been seen yet count for places above the one that leaves
  have split : first * second = first % 2 ^ (count + 1) * second +
      2 ^ count * (2 * (first / 2 ^ (count + 1) * second)) := by
    conv_lhs => rw [← Nat.mod_add_div first (2 ^ (count + 1))]
    ring
  rw [accumulated_add, split, Nat.add_mul_div_left _ _ positive, Nat.add_mul_mod_self_left]

/-! ## The program -/

/-- The instructions of the multiplier with resolved branches. -/
def instructions (factor1 factor2 low : Word) : List Instruction :=
  [.load .x 8, .load .a 0, .clearCarry,
   .rotateMemory factor1, .branchIfClear .carry 7, .clearCarry, .addWithCarry factor2,
   .rotateRegister .a, .rotateMemory low, .decrement .x, .branchIfClear .zero 3,
   .halt]

theorem program_eq_ok (factor1 factor2 low : Word) :
    ∃ program, Multiplier.program factor1 factor2 low = .ok program ∧
      program.instructions = instructions factor1 factor2 low :=
  ⟨_, rfl, rfl⟩

theorem filterMap_address? (factor1 factor2 low : Word) :
    (instructions factor1 factor2 low).filterMap Instruction.address? = [factor1, factor2, low] :=
  rfl

/-- What a round does up to the point where its two paths meet again. -/
def roundSum (locate : Word -> UInt32) (factor1 factor2 : Word) (processor : Processor) :
    Processor :=
  let halved := processor.act locate (.rotateMemory factor1)
  if halved.carry then (halved.act locate .clearCarry).act locate (.addWithCarry factor2)
  else halved

/-- What a round does to a processor. -/
def round (locate : Word -> UInt32) (factor1 factor2 low : Word) (processor : Processor) :
    Processor :=
  (((roundSum locate factor1 factor2 processor).act locate (.rotateRegister .a)).act locate
    (.rotateMemory low)).act locate (.decrement .x)

variable {program : Program} {locate : Word -> UInt32} {factor1 factor2 low : Word}
  {processor final : Processor} {visited : List Nat}

theorem get?_eq (code : program.instructions = instructions factor1 factor2 low) (pc : Nat) :
    program.get? pc = (instructions factor1 factor2 low)[pc]? := by
  rw [Program.get?, code]

theorem runs_roundSum (code : program.instructions = instructions factor1 factor2 low)
    (runs : Runs program locate (.running 3) processor visited final) :
    ∃ rest, Runs program locate (.running 7) (roundSum locate factor1 factor2 processor) rest
      final := by
  rcases runs.next (get?_eq code 3) with ⟨_, rotated⟩
  rcases rotated.next (get?_eq code 4) with ⟨rest, branched⟩
  cases set : (processor.act locate (.rotateMemory factor1)).carry with
  | true =>
      rw [Processor.after, Processor.flag, set] at branched
      simp only [roundSum, set, if_true]
      rcases branched.next (get?_eq code 5) with ⟨_, cleared⟩
      rcases cleared.next (get?_eq code 6) with ⟨_, added⟩
      exact ⟨_, added⟩
  | false =>
      rw [Processor.after, Processor.flag, set] at branched
      simp only [roundSum, set, Bool.false_eq_true, if_false]
      exact ⟨rest, branched⟩

theorem runs_round (code : program.instructions = instructions factor1 factor2 low)
    (runs : Runs program locate (.running 3) processor visited final) :
    ∃ rest, Runs program locate
      (.running (if (round locate factor1 factor2 low processor).zero then 11 else 3))
      (round locate factor1 factor2 low processor) rest final := by
  rcases runs_roundSum code runs with ⟨_, joined⟩
  rcases joined.next (get?_eq code 7) with ⟨_, accumulatorRotated⟩
  rcases accumulatorRotated.next (get?_eq code 8) with ⟨_, lowRotated⟩
  rcases lowRotated.next (get?_eq code 9) with ⟨_, counted⟩
  rcases counted.next (get?_eq code 10) with ⟨_, branched⟩
  exact ⟨_, branched⟩

/-! ## Numbers in a round -/

theorem lowest_eq (value : UInt8) : Processor.lowest value = decide (value.toNat % 2 = 1) :=
  Nat.testBit_zero value.toNat

/-- The accumulator and the second factor if the lowest bit of the first is set. -/
def total (locate : Word -> UInt32) (factor1 factor2 : Word) (processor : Processor) : Nat :=
  processor.a.toNat + (processor.memory (locate factor1)).toNat % 2 *
    (processor.memory (locate factor2)).toNat

theorem roundSum_eq (processor : Processor) (apart : locate factor2 ≠ locate factor1) :
    ∃ zero, roundSum locate factor1 factor2 processor =
      { memory := Function.update processor.memory (locate factor1)
          (Processor.rotate (processor.memory (locate factor1)) processor.carry)
        x := processor.x
        a := .ofNat (total locate factor1 factor2 processor)
        carry := decide (256 ≤ total locate factor1 factor2 processor)
        zero } := by
  have parity := lowest_eq (processor.memory (locate factor1))
  have bound := processor.a.toNat_lt
  by_cases odd : (processor.memory (locate factor1)).toNat % 2 = 1
  · have sum : total locate factor1 factor2 processor =
        processor.a.toNat + (processor.memory (locate factor2)).toNat := by
      rw [total, odd, Nat.one_mul]
    rw [decide_eq_true odd] at parity
    simp only [roundSum, Processor.act, Processor.withFlag, Processor.write,
      Processor.withRegister, parity, if_true, Function.update_of_ne apart, Bool.toNat_false,
      Nat.add_zero, sum]
    exact ⟨_, rfl⟩
  · have even : (processor.memory (locate factor1)).toNat % 2 = 0 := by omega
    have sum : total locate factor1 factor2 processor = processor.a.toNat := by
      rw [total, even, Nat.zero_mul, Nat.add_zero]
    have noCarry : decide (256 ≤ processor.a.toNat) = false := decide_eq_false (by omega)
    rw [decide_eq_false odd] at parity
    simp only [roundSum, Processor.act, Processor.withFlag, Processor.write, parity,
      Bool.false_eq_true, if_false, sum, noCarry, UInt8.ofNat_toNat]
    exact ⟨_, rfl⟩

theorem total_lt : total locate factor1 factor2 processor < 2 * 256 := by
  have accumulatorBound := processor.a.toNat_lt
  have factorBound := (processor.memory (locate factor2)).toNat_lt
  have bit := Nat.mod_lt (processor.memory (locate factor1)).toNat (show 0 < 2 by decide)
  have product : (processor.memory (locate factor1)).toNat % 2 *
      (processor.memory (locate factor2)).toNat ≤ 1 * (processor.memory (locate factor2)).toNat :=
    Nat.mul_le_mul_right _ (by omega)
  rw [total]
  omega

/-- A round in numbers. -/
theorem round_eq (processor : Processor) (factorsApart : locate factor2 ≠ locate factor1)
    (lowApart : locate low ≠ locate factor1) :
    let sum := total locate factor1 factor2 processor
    let next := round locate factor1 factor2 low processor
    next.x = processor.x - 1 ∧ next.zero = (processor.x - 1 == 0) ∧ next.a.toNat = sum / 2 ∧
    next.carry = Processor.lowest (processor.memory (locate low)) ∧
    next.memory = Function.update (Function.update processor.memory (locate factor1)
        (Processor.rotate (processor.memory (locate factor1)) processor.carry)) (locate low)
      (Processor.rotate (processor.memory (locate low)) (decide (sum % 2 = 1))) := by
  intro sum next
  have bound : sum < 2 * 256 := total_lt
  rcases roundSum_eq processor factorsApart with ⟨zero, halfway⟩
  have wrapped : (UInt8.ofNat sum).toNat = sum % 256 := UInt8.toNat_ofNat'
  have leaving : Processor.lowest (.ofNat sum) = decide (sum % 2 = 1) := by
    rw [lowest_eq, wrapped]
    congr 1
    rw [eq_iff_iff]
    omega
  have halved : (Processor.rotate (.ofNat sum) (decide (256 ≤ sum))).toNat = sum / 2 := by
    rw [Processor.toNat_rotate, wrapped]
    by_cases carries : 256 ≤ sum
    · rw [decide_eq_true carries, Bool.toNat_true]
      omega
    · rw [decide_eq_false carries, Bool.toNat_false]
      omega
  simp only [next, round, halfway, Processor.act, Processor.register, Processor.withRegister,
    Processor.withFlag, Processor.write, Function.update_of_ne lowApart]
  exact ⟨trivial, trivial, halved, trivial, congrArg _ (congrArg _ leaving)⟩

/-! ## The invariant -/

/-- A processor after some rounds from a memory in which the three addresses differ. -/
structure Stage (locate : Word -> UInt32) (factor1 factor2 low : Word) (memory : UInt32 -> UInt8)
    (count : Nat) (processor : Processor) : Prop where
  x : processor.x.toNat = 8 - count
  a : processor.a.toNat = accumulated (memory (locate factor1)).toNat
    (memory (locate factor2)).toNat count
  carry : processor.carry = decide (2 * (memory (locate low)).toNat / 2 ^ count % 2 = 1)
  firstCell : (processor.memory (locate factor1)).toNat =
    shifted (memory (locate factor1)).toNat (2 * (memory (locate low)).toNat) count
  lowCell : (processor.memory (locate low)).toNat = shifted (memory (locate low)).toNat
    ((memory (locate factor1)).toNat * (memory (locate factor2)).toNat) count
  others : ∀ place, place ≠ locate factor1 -> place ≠ locate low ->
    processor.memory place = memory place

/-- The three addresses are located in different places. -/
structure Apart (locate : Word -> UInt32) (factor1 factor2 low : Word) : Prop where
  factors : locate factor1 ≠ locate factor2
  firstLow : locate factor1 ≠ locate low
  secondLow : locate factor2 ≠ locate low

variable {memory : UInt32 -> UInt8} {count : Nat}

theorem toNat_decide_mod_two (number : Nat) : (decide (number % 2 = 1)).toNat = number % 2 := by
  rcases Nat.mod_two_eq_zero_or_one number with even | odd
  · rw [even]
    rfl
  · rw [odd]
    rfl

theorem Stage.round (apart : Apart locate factor1 factor2 low) (small : count < 8)
    (stage : Stage locate factor1 factor2 low memory count processor) :
    Stage locate factor1 factor2 low memory (count + 1)
      (round locate factor1 factor2 low processor) := by
  rcases round_eq processor apart.factors.symm apart.firstLow.symm with
    ⟨x, _, a, carry, memoryAfter⟩
  have second : processor.memory (locate factor2) = memory (locate factor2) :=
    stage.others _ apart.factors.symm apart.secondLow
  -- the lowest bit of the first factor is one of its own: what has entered stands above it
  have sum : total locate factor1 factor2 processor =
      accumulated (memory (locate factor1)).toNat (memory (locate factor2)).toNat count +
        (memory (locate factor1)).toNat / 2 ^ count % 2 * (memory (locate factor2)).toNat := by
    rw [total, stage.a, stage.firstCell, shifted_mod_two _ _ small, second]
  constructor
  · rw [x, UInt8.toNat_sub, stage.x]
    have one : (1 : UInt8).toNat = 1 := rfl
    omega
  · rw [a, sum, accumulated_succ]
  · rw [carry, lowest_eq, stage.lowCell, shifted_mod_two _ _ small, Nat.pow_succ',
      Nat.mul_div_mul_left _ _ (by decide)]
  · rw [memoryAfter, Function.update_of_ne apart.firstLow, Function.update_self,
      Processor.toNat_rotate, stage.firstCell, stage.carry, toNat_decide_mod_two,
      shifted_succ _ _ small]
  · rw [memoryAfter, Function.update_self, Processor.toNat_rotate, stage.lowCell,
      toNat_decide_mod_two, sum, accumulated_add_mod_two, shifted_succ _ _ small]
  · intro place notFirst notLow
    rw [memoryAfter, Function.update_of_ne notLow, Function.update_of_ne notFirst]
    exact stage.others place notFirst notLow

theorem Stage.zero_round (apart : Apart locate factor1 factor2 low) (small : count < 8)
    (stage : Stage locate factor1 factor2 low memory count processor) :
    (Multiplier.round locate factor1 factor2 low processor).zero = decide (count + 1 = 8) := by
  rcases round_eq processor apart.factors.symm apart.firstLow.symm with ⟨x, zero, _⟩
  rw [zero, ← x, Bool.eq_iff_iff, beq_iff_eq, decide_eq_true_iff, ← UInt8.toNat_inj,
    (stage.round apart small).x]
  have nothing : (0 : UInt8).toNat = 0 := rfl
  omega

/-- The remaining rounds lead to the last stage. -/
theorem Stage.runs (code : program.instructions = instructions factor1 factor2 low)
    (apart : Apart locate factor1 factor2 low) {remaining : Nat} (left : count + remaining + 1 = 8)
    (stage : Stage locate factor1 factor2 low memory count processor)
    (runs : Runs program locate (.running 3) processor visited final) :
    Stage locate factor1 factor2 low memory 8 final := by
  induction remaining generalizing count processor visited with
  | zero =>
      have last : count + 1 = 8 := by omega
      rcases runs_round code runs with ⟨_, next⟩
      rw [stage.zero_round apart (by omega), decide_eq_true last] at next
      rcases next.next (get?_eq code 11) with ⟨_, halted⟩
      rw [halted.eq_of_halted, ← last]
      exact stage.round apart (by omega)
  | succ remaining ih =>
      have notLast : ¬ count + 1 = 8 := by omega
      rcases runs_round code runs with ⟨_, next⟩
      rw [stage.zero_round apart (by omega), decide_eq_false notLast] at next
      exact ih (by omega) (stage.round apart (by omega)) next

/-- A processor that runs through the multiplier ends in the last stage. -/
theorem stage_of_runs (code : program.instructions = instructions factor1 factor2 low)
    (apart : Apart locate factor1 factor2 low)
    (runs : Runs program locate (.running 0) processor visited final) :
    Stage locate factor1 factor2 low processor.memory 8 final := by
  rcases runs.next (get?_eq code 0) with ⟨_, counted⟩
  rcases counted.next (get?_eq code 1) with ⟨_, emptied⟩
  rcases emptied.next (get?_eq code 2) with ⟨_, cleared⟩
  refine Stage.runs code apart (show 0 + 7 + 1 = 8 from rfl) ?_ cleared
  constructor
  · rfl
  · rw [accumulated_zero]
    rfl
  · rw [Nat.pow_zero, Nat.div_one, Nat.mul_mod_right]
    rfl
  · exact (shifted_zero _ _).symm
  · exact (shifted_zero _ _).symm
  · intro place _ _
    rfl

/-- Accumulator and low word hold the product at the end. -/
theorem product_of_runs (code : program.instructions = instructions factor1 factor2 low)
    (apart : Apart locate factor1 factor2 low)
    (runs : Runs program locate (.running 0) processor visited final) :
    256 * final.a.toNat + (final.memory (locate low)).toNat =
      (processor.memory (locate factor1)).toNat * (processor.memory (locate factor2)).toNat := by
  have stage := stage_of_runs code apart runs
  rw [stage.a, stage.lowCell, shifted_eight _ (UInt8.toNat_lt _), accumulated,
    Nat.mod_eq_of_lt (UInt8.toNat_lt _)]
  exact Nat.div_add_mod _ _

end Multiplier
end SymbolicMachine
