import Mathlib.Data.BitVec
import Mathlib.Logic.Function.Iterate

/-! # Reflected cyclic redundancy checks

A register of some width takes the bits of a message one at a time, the lowest bit of a chunk first.
A step is linear over exclusive or. So a whole chunk can be put into the register before the steps,
and the steps of a register are those of its low bits and a shift of the others.
-/

namespace Hakkun.Math.Crc

variable {w : ℕ} (poly : BitVec w)

/-- The register after a bit of the message. -/
def step (register : BitVec w) (bit : Bool) : BitVec w :=
  if register.getLsbD 0 ^^ bit then register >>> 1 ^^^ poly else register >>> 1

/-- The register after a message. -/
def run (register : BitVec w) (message : List Bool) : BitVec w := message.foldl (step poly) register

/-- A step without a bit. -/
def shift (register : BitVec w) : BitVec w := step poly register false

/-- The lowest bits of a chunk, lowest first. -/
def bitsOf {n : ℕ} (chunk : BitVec n) (count : ℕ) : List Bool :=
  (List.range count).map chunk.getLsbD

theorem step_xor (first second : BitVec w) (one two : Bool) :
    step poly (first ^^^ second) (one ^^ two) = step poly first one ^^^ step poly second two := by
  have bits : ((first ^^^ second).getLsbD 0 ^^ (one ^^ two)) =
      ((first.getLsbD 0 ^^ one) ^^ (second.getLsbD 0 ^^ two)) := by
    rw [BitVec.getLsbD_xor, Bool.xor_assoc, Bool.xor_left_comm (second.getLsbD 0), ← Bool.xor_assoc]
  rw [step, bits, BitVec.ushiftRight_xor_distrib]
  cases one_bit : first.getLsbD 0 ^^ one <;> cases two_bit : second.getLsbD 0 ^^ two
  · rw [step, one_bit, step, two_bit]
    rfl
  · rw [step, one_bit, step, two_bit]
    exact BitVec.xor_assoc _ _ _
  · rw [step, one_bit, step, two_bit]
    change first >>> 1 ^^^ second >>> 1 ^^^ poly = first >>> 1 ^^^ poly ^^^ second >>> 1
    ac_rfl
  · rw [step, one_bit, step, two_bit]
    change first >>> 1 ^^^ second >>> 1 = first >>> 1 ^^^ poly ^^^ (second >>> 1 ^^^ poly)
    rw [BitVec.xor_comm (second >>> 1), ← BitVec.xor_assoc, BitVec.xor_assoc (first >>> 1),
      BitVec.xor_self, BitVec.xor_zero]

theorem shift_xor (first second : BitVec w) :
    shift poly (first ^^^ second) = shift poly first ^^^ shift poly second :=
  step_xor poly first second false false

theorem shift_iterate_xor (count : ℕ) (first second : BitVec w) :
    (shift poly)^[count] (first ^^^ second) =
      (shift poly)^[count] first ^^^ (shift poly)^[count] second := by
  induction count generalizing first second with
  | zero => rfl
  | succ count ih => rw [Function.iterate_succ_apply, shift_xor, ih]; rfl

/-- A register that has the bit at its low end only shifts it out. -/
theorem step_same (register : BitVec w) :
    step poly register (register.getLsbD 0) = register >>> 1 := by
  rw [step, Bool.xor_self]
  rfl

/-- The bits of a chunk can be put into the register before the steps. -/
theorem run_bitsOf (register chunk : BitVec w) (count : ℕ) :
    run poly register (bitsOf chunk count) =
      (shift poly)^[count] (register ^^^ chunk) ^^^ chunk >>> count := by
  induction count with
  | zero =>
    change register = register ^^^ chunk ^^^ chunk >>> 0
    rw [BitVec.ushiftRight_zero, BitVec.xor_assoc, BitVec.xor_self, BitVec.xor_zero]
  | succ count ih =>
    have low : (chunk >>> count).getLsbD 0 = chunk.getLsbD count := by
      rw [BitVec.getLsbD_ushiftRight, Nat.add_zero]
    have out := step_same poly (chunk >>> count)
    rw [low, ← BitVec.shiftRight_add] at out
    have split := step_xor poly ((shift poly)^[count] (register ^^^ chunk)) (chunk >>> count) false
      (chunk.getLsbD count)
    rw [out, Bool.false_xor] at split
    rw [bitsOf, List.range_succ, List.map_append, run, List.foldl_append,
      Function.iterate_succ_apply']
    exact (congrArg (step poly · (chunk.getLsbD count)) ih).trans split

/-- Without a bit at the low end there is only a shift. -/
theorem shift_iterate_clear {register : BitVec w} {count : ℕ}
    (clear : ∀ i < count, register.getLsbD i = false) :
    (shift poly)^[count] register = register >>> count := by
  induction count with
  | zero => exact (BitVec.ushiftRight_zero register).symm
  | succ count ih =>
    have low : (register >>> count).getLsbD 0 = false := by
      rw [BitVec.getLsbD_ushiftRight, Nat.add_zero]
      exact clear count (Nat.lt_succ_self count)
    have out := step_same poly (register >>> count)
    rw [low, ← BitVec.shiftRight_add] at out
    rw [Function.iterate_succ_apply', ih fun i below => clear i (Nat.lt_succ_of_lt below)]
    exact out

/-- The steps of a register are those of its low bits and a shift of the others. -/
theorem shift_iterate_split (register : BitVec w) (count : ℕ) :
    (shift poly)^[count] register =
      (shift poly)^[count] ((register.setWidth count).setWidth w) ^^^ register >>> count := by
  have parts : register =
      (register.setWidth count).setWidth w ^^^ register >>> count <<< count := by
    apply BitVec.eq_of_getLsbD_eq
    intro i inside
    simp only [BitVec.getLsbD_xor, BitVec.getLsbD_setWidth, BitVec.getLsbD_shiftLeft,
      BitVec.getLsbD_ushiftRight, inside, decide_true, Bool.true_and]
    rcases Nat.lt_or_ge i count with low | high
    · simp only [low, decide_true, Bool.true_and, Bool.not_true, Bool.false_and, Bool.xor_false]
    · simp only [Nat.not_lt.mpr high, decide_false, Bool.false_and, Bool.not_false, Bool.true_and,
        Bool.false_xor, Nat.add_sub_cancel' high]
  have clear (i : ℕ) (below : i < count) : (register >>> count <<< count).getLsbD i = false := by
    rw [BitVec.getLsbD_shiftLeft, decide_eq_true below, Bool.not_true, Bool.and_false,
      Bool.false_and]
  have back : register >>> count <<< count >>> count = register >>> count := by
    apply BitVec.eq_of_getLsbD_eq
    intro i _
    simp only [BitVec.getLsbD_ushiftRight, BitVec.getLsbD_shiftLeft, Nat.not_lt.mpr
      (Nat.le_add_right count i), decide_false, Bool.not_false, Bool.and_true,
      Nat.add_sub_cancel_left, Bool.and_eq_right_iff_imp, decide_eq_true_eq]
    exact BitVec.lt_of_getLsbD
  conv_lhs => rw [parts, shift_iterate_xor, shift_iterate_clear poly clear, back]

end Hakkun.Math.Crc
