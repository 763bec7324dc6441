import Mathlib.Data.Nat.Bits
import Mathlib.Tactic.Linarith
import Mathlib.Tactic.Ring

/-! # Bit fields of fixed-width words as natural-number arithmetic

A word assembled field by field is a sum of shifted fields as long as each field is written over
zero bits, and a field read back is a quotient and a remainder. Reasoning about encoders and
decoders then needs no bit enumeration: every step is linear arithmetic over literals. The same
reading turns sign extension of a truncated value into a range condition.
-/

namespace Hakkun.Math

/-- Writing a field over zero bits adds it. -/
theorem or_eq_add_of_clear {word field lo width : ℕ} (fits : field < 2 ^ width)
    (clear : word / 2 ^ lo % 2 ^ width = 0) : word ||| field * 2 ^ lo = word + field * 2 ^ lo := by
  have low : word % 2 ^ lo < 2 ^ lo := Nat.mod_lt _ (Nat.two_pow_pos lo)
  have high : word / 2 ^ lo = 2 ^ width * (word / 2 ^ lo / 2 ^ width) := by
    have := Nat.div_add_mod (word / 2 ^ lo) (2 ^ width)
    omega
  have split : word = (word / 2 ^ lo) <<< lo ||| word % 2 ^ lo := by
    rw [← Nat.shiftLeft_add_eq_or_of_lt low, Nat.shiftLeft_eq, Nat.div_add_mod']
  have inner : word / 2 ^ lo ||| field = word / 2 ^ lo + field := by
    rw [high]
    exact (Nat.two_pow_add_eq_or_of_lt fits _).symm
  calc
    word ||| field * 2 ^ lo = ((word / 2 ^ lo) <<< lo ||| field <<< lo) ||| word % 2 ^ lo := by
      conv_lhs => rw [split, ← Nat.shiftLeft_eq, Nat.or_assoc, Nat.or_comm (word % 2 ^ lo),
        ← Nat.or_assoc]
    _ = (word / 2 ^ lo + field) <<< lo + word % 2 ^ lo := by
      rw [← Nat.shiftLeft_or_distrib, inner, Nat.shiftLeft_add_eq_or_of_lt low]
    _ = word + field * 2 ^ lo := by
      have := Nat.div_add_mod word (2 ^ lo)
      rw [Nat.shiftLeft_eq]
      nlinarith

/-- The contiguous mask of bits `lo … hi` keeps exactly that field. -/
theorem and_fieldMask (value lo hi : ℕ) (order : lo ≤ hi + 1) :
    value * 2 ^ lo &&& (2 ^ (hi + 1) - 2 ^ lo) = value % 2 ^ (hi + 1 - lo) * 2 ^ lo := by
  have mask : 2 ^ (hi + 1) - 2 ^ lo = (2 ^ (hi + 1 - lo) - 1) <<< lo := by
    rw [Nat.shiftLeft_eq, Nat.sub_mul, ← Nat.pow_add, Nat.sub_add_cancel order, Nat.one_mul]
  rw [mask, ← Nat.shiftLeft_eq, ← Nat.shiftLeft_and_distrib, Nat.and_two_pow_sub_one_eq_mod,
    Nat.shiftLeft_eq]

/-- A mask at a position keeps the field there. -/
theorem and_shifted_mask (value lo width : ℕ) :
    value &&& (2 ^ width - 1) * 2 ^ lo = value / 2 ^ lo % 2 ^ width * 2 ^ lo := by
  apply Nat.eq_of_testBit_eq
  intro i
  rw [Nat.testBit_and, Nat.testBit_mul_two_pow, Nat.testBit_mul_two_pow, Nat.testBit_two_pow_sub_one,
    Nat.testBit_mod_two_pow, Nat.testBit_div_two_pow]
  rcases Nat.lt_or_ge i lo with below | above
  · rw [decide_eq_false (Nat.not_le.mpr below), Bool.false_and, Bool.false_and, Bool.and_false]
  · rw [Nat.sub_add_cancel above, Bool.and_comm, Bool.and_assoc]

/-- Flipping the bit above a field sets or clears it. -/
theorem xor_two_pow {value k : ℕ} (fits : value < 2 ^ (k + 1)) :
    value ^^^ 2 ^ k = if value < 2 ^ k then value + 2 ^ k else value - 2 ^ k := by
  have set {low : ℕ} (small : low < 2 ^ k) : low ^^^ 2 ^ k = low + 2 ^ k := by
    apply Nat.eq_of_testBit_eq
    intro i
    rw [Nat.testBit_xor, Nat.testBit_two_pow, Nat.add_comm]
    rcases lt_trichotomy i k with below | rfl | above
    · rw [Nat.testBit_two_pow_add_gt below, decide_eq_false (Nat.ne_of_gt below), Bool.xor_false]
    · rw [Nat.testBit_two_pow_add_eq, decide_eq_true rfl, Bool.xor_true]
    · have power : 2 ^ (k + 1) ≤ 2 ^ i := Nat.pow_le_pow_right (by decide) above
      rw [Nat.pow_succ] at power
      rw [Nat.testBit_lt_two_pow (by omega), Nat.testBit_lt_two_pow (by omega),
        decide_eq_false (Nat.ne_of_lt above), Bool.xor_false]
  split
  · exact set ‹_›
  · rename_i large
    rw [Nat.pow_succ] at fits
    have small : value - 2 ^ k < 2 ^ k := by omega
    calc
      value ^^^ 2 ^ k = (value - 2 ^ k ^^^ 2 ^ k) ^^^ 2 ^ k := by
        rw [set small, Nat.sub_add_cancel (by omega)]
      _ = value - 2 ^ k := by rw [Nat.xor_assoc, Nat.xor_self, Nat.xor_zero]

/-- Concatenation of words is a shifted sum. -/
theorem toNat_append_eq_add {m n : ℕ} (high : BitVec m) (low : BitVec n) :
    (high ++ low).toNat = high.toNat * 2 ^ n + low.toNat := by
  rw [BitVec.toNat_append, ← Nat.shiftLeft_add_eq_or_of_lt low.isLt, Nat.shiftLeft_eq]

/-- A field read is a quotient and a remainder. -/
theorem toNat_field {n : ℕ} (word : BitVec n) (lo width : ℕ) :
    (word.extractLsb' lo width).toNat = word.toNat / 2 ^ lo % 2 ^ width := by
  rw [BitVec.extractLsb'_toNat, Nat.shiftRight_eq_div_pow]

/-- Truncating to `k + 1` bits and sign-extending back is the identity exactly on the signed
range of `k + 1` bits. -/
theorem signExtend_setWidth_eq_iff {n k : ℕ} (wide : k < n) (value : BitVec n) :
    (value.setWidth (k + 1)).signExtend n = value ↔
      -(2 ^ k : ℤ) ≤ value.toInt ∧ value.toInt < 2 ^ k := by
  rw [← BitVec.toInt_inj, BitVec.toInt_signExtend_of_le (by omega), BitVec.toInt_setWidth]
  have bmod : Int.bmod value.toNat (2 ^ (k + 1)) = Int.bmod value.toInt (2 ^ (k + 1)) := by
    rw [BitVec.toInt_eq_toNat_bmod]
    apply (Int.bmod_bmod_of_dvd _).symm
    exact_mod_cast Nat.pow_dvd_pow 2 (by omega)
  rw [bmod]
  constructor
  · intro same
    have lower := Int.le_bmod (x := value.toInt) (m := 2 ^ (k + 1)) (Nat.two_pow_pos _)
    have upper := Int.bmod_lt (x := value.toInt) (m := 2 ^ (k + 1)) (Nat.two_pow_pos _)
    rw [same] at lower upper
    push_cast [pow_succ] at lower upper
    omega
  · rintro ⟨lower, upper⟩
    apply Int.bmod_eq_of_le <;> push_cast [pow_succ] <;> omega

end Hakkun.Math
