import Hakkun.Math.BitField
import Mathlib.Data.BitVec

/-! # Integer traits and bit arithmetic

Translated from `hk/prim/traits/Integer.h` and `hk/util/Math.h` at `cSystemRegisterWidth = 64`.
`size`, `ptr` and `u64` are `BitVec 64`, `u32` is `BitVec 32`; a signed value is the same bits,
read with `toInt`. Each function is followed by its meaning over natural numbers, which is the
only thing later modules use.
-/

namespace Hakkun

abbrev U64 := BitVec 64
abbrev U32 := BitVec 32
abbrev Ptr := BitVec 64

def cSystemRegisterWidth : ℕ := 64
def cPageSize : U64 := 4096

/-- `bit(n)`. -/
def bit (n : ℕ) : U64 := 1#64 <<< n

/-- `bits(n)`, the mask of the `n` low bits. -/
def bits (n : ℕ) : U64 := if n = cSystemRegisterWidth then -1 else bit n - 1#64

theorem bits_toNat {n : ℕ} (bound : n ≤ 64) : (bits n).toNat = 2 ^ n - 1 := by
  rcases Nat.lt_or_eq_of_le bound with small | rfl
  · have power : 2 ^ n < 2 ^ 64 := Nat.pow_lt_pow_right (by decide) small
    have positive := Nat.two_pow_pos n
    have narrow : n ≠ cSystemRegisterWidth := Nat.ne_of_lt small
    rw [bits, if_neg narrow, bit, BitVec.toNat_sub, BitVec.toNat_shiftLeft, Nat.shiftLeft_eq,
      show (1#64).toNat = 1 from rfl, Nat.one_mul, Nat.mod_eq_of_lt power]
    omega
  · rfl

/-- Masking with `bits(n)` is a remainder. -/
theorem and_bits_toNat {n : ℕ} (value : U64) (bound : n ≤ 64) :
    (value &&& bits n).toNat = value.toNat % 2 ^ n := by
  rw [BitVec.toNat_and, bits_toNat bound, Nat.and_two_pow_sub_one_eq_mod]

/-- `util::isRepresentable`: some shift of a `width`-bit mask keeps the value. -/
def isRepresentable (width : ℕ) (value : U64) (numShift : ℕ) : Bool :=
  (List.range numShift).any fun i => value &&& (bits width <<< (i * width)) == value

theorem isRepresentable_one {width : ℕ} (value : U64) (bound : width ≤ 64) :
    isRepresentable width value 1 = true ↔ value.toNat < 2 ^ width := by
  simp only [isRepresentable, List.range_one, List.any_cons, Nat.zero_mul, BitVec.shiftLeft_zero,
    List.any_nil, Bool.or_false, beq_iff_eq, ← BitVec.toNat_inj, and_bits_toNat value bound]
  exact Nat.mod_eq_iff_lt (Nat.two_pow_pos _).ne'

/-- `alignDown(from, cPageSize)`. -/
def alignDownPage (value : U64) : U64 := value &&& ~~~(cPageSize - 1)

/-- `isAlignedPage`. -/
def isAlignedPage (value : U64) : Bool := alignDownPage value == value

/-- Clearing the `n` low bits subtracts the remainder. -/
theorem and_not_bits_toNat {n : ℕ} (value : U64) (bound : n ≤ 64) :
    (value &&& ~~~bits n).toNat = value.toNat - value.toNat % 2 ^ n := by
  have split : value = (value &&& ~~~bits n) + (value &&& bits n) := by
    rw [BitVec.add_eq_or_of_and_eq_zero _ _ (by
      ext i h
      simp only [BitVec.getElem_and, BitVec.getElem_not, BitVec.getElem_zero]
      cases value[i] <;> cases (bits n)[i] <;> rfl)]
    ext i h
    simp only [BitVec.getElem_or, BitVec.getElem_and, BitVec.getElem_not]
    cases value[i] <;> cases (bits n)[i] <;> rfl
  have low := and_bits_toNat value bound
  have below : (value &&& ~~~bits n).toNat ≤ value.toNat := by
    rw [BitVec.toNat_and]
    exact Nat.and_le_left
  have total := congrArg BitVec.toNat split
  rw [BitVec.toNat_add, low] at total
  have := Nat.mod_le value.toNat (2 ^ n)
  have := value.isLt
  omega

theorem isAlignedPage_iff (value : U64) : isAlignedPage value = true ↔ value.toNat % 4096 = 0 := by
  have mask : cPageSize - 1 = bits 12 := rfl
  have := Nat.mod_le value.toNat 4096
  rw [isAlignedPage, alignDownPage, mask, beq_iff_eq, ← BitVec.toNat_inj,
    and_not_bits_toNat value (by decide)]
  norm_num only
  omega

/-- `util::countSetBits`: the loop runs until no bit is left, at most once for each bit. -/
def countSetBits {w : ℕ} (n : BitVec w) : ℕ :=
  go w n
where
  go : ℕ → BitVec w → ℕ
    | 0, _ => 0
    | fuel + 1, n => if n = 0 then 0 else (n &&& 1).toNat + go fuel (n >>> 1)

/-- `util::signExtend` of a `u32`, whose result is the same 32 bits read as an `s32`. -/
def signExtend (value : U32) (width : ℕ) : U32 :=
  let mask := 1#32 <<< (width - 1)
  (value ^^^ mask) - mask

/-- Of a field of `k + 1` bits it is the sign extension. -/
theorem signExtend_toNat {value : U32} {k : ℕ} (bound : k < 32)
    (fits : value.toNat < 2 ^ (k + 1)) :
    (signExtend value (k + 1)).toNat =
      value.toNat + if 2 ^ k ≤ value.toNat then 2 ^ 32 - 2 ^ (k + 1) else 0 := by
  have power : 2 ^ (k + 1) ≤ 2 ^ 32 := Nat.pow_le_pow_right (by decide) bound
  have mask : (1#32 <<< k).toNat = 2 ^ k := by
    rw [BitVec.toNat_shiftLeft, Nat.shiftLeft_eq, BitVec.toNat_ofNat]
    rw [Nat.pow_succ] at power
    omega
  rw [signExtend, Nat.add_sub_cancel, BitVec.toNat_sub, BitVec.toNat_xor, mask,
    Math.xor_two_pow fits]
  rw [Nat.pow_succ] at fits power ⊢
  split <;> split <;> omega

/-- `util::IntBuilder<u32>`, used as `InstrBuilder`. -/
structure InstrBuilder where
  mValue : U32 := 0

namespace InstrBuilder

/-- `set(upperIdx, lowerIdx, value)`; the mask is computed in 64 bits. -/
def set (builder : InstrBuilder) (upperIdx lowerIdx : ℕ) (value : U32) : InstrBuilder :=
  ⟨builder.mValue ||| ((value <<< lowerIdx).setWidth 64 &&&
    ((1#64 <<< (upperIdx + 1)) - (1#64 <<< lowerIdx))).setWidth 32⟩

private theorem mask_toNat {upperIdx lowerIdx : ℕ} (order : lowerIdx ≤ upperIdx)
    (bound : upperIdx < 32) :
    ((1#64 <<< (upperIdx + 1)) - (1#64 <<< lowerIdx)).toNat = 2 ^ (upperIdx + 1) - 2 ^ lowerIdx := by
  have upper : 2 ^ (upperIdx + 1) ≤ 2 ^ 32 := Nat.pow_le_pow_right (by decide) bound
  have lower : 2 ^ lowerIdx ≤ 2 ^ (upperIdx + 1) := Nat.pow_le_pow_right (by decide) (by omega)
  simp only [BitVec.toNat_sub, BitVec.toNat_shiftLeft, BitVec.toNat_ofNat, Nat.shiftLeft_eq]
  omega

/-- A field set over zero bits adds its low `width` bits at its position. -/
theorem set_toNat {builder : InstrBuilder} {total upperIdx lowerIdx : ℕ} (width : ℕ) (value : U32)
    (sum : builder.mValue.toNat = total) (order : upperIdx + 1 = lowerIdx + width)
    (positive : 0 < width) (bound : upperIdx < 32)
    (clear : total / 2 ^ lowerIdx % 2 ^ width = 0) :
    (builder.set upperIdx lowerIdx value).mValue.toNat =
      total + value.toNat % 2 ^ width * 2 ^ lowerIdx := by
  have shifted : value.toNat * 2 ^ lowerIdx % 2 ^ 32 =
      value.toNat % 2 ^ (32 - lowerIdx) * 2 ^ lowerIdx := by
    rw [← Nat.mul_mod_mul_right, ← Nat.pow_add, Nat.sub_add_cancel (by omega)]
  have field : ((value <<< lowerIdx).setWidth 64 &&&
      ((1#64 <<< (upperIdx + 1)) - (1#64 <<< lowerIdx))).toNat =
        value.toNat % 2 ^ width * 2 ^ lowerIdx := by
    rw [BitVec.toNat_and, mask_toNat (by omega) bound, BitVec.toNat_setWidth,
      BitVec.toNat_shiftLeft, Nat.shiftLeft_eq, shifted, Nat.mod_eq_of_lt,
      Math.and_fieldMask _ _ _ (by omega), Nat.mod_mod_of_dvd _ (Nat.pow_dvd_pow 2 (by omega)),
      show upperIdx + 1 - lowerIdx = width by omega]
    rw [← shifted]
    exact Nat.lt_trans (Nat.mod_lt _ (by decide)) (by decide)
  have fits : value.toNat % 2 ^ width * 2 ^ lowerIdx < 2 ^ 32 := by
    have : value.toNat % 2 ^ width < 2 ^ width := Nat.mod_lt _ (Nat.two_pow_pos _)
    calc
      _ < 2 ^ width * 2 ^ lowerIdx := Nat.mul_lt_mul_of_pos_right this (Nat.two_pow_pos _)
      _ = 2 ^ (upperIdx + 1) := by rw [← Nat.pow_add, order, Nat.add_comm]
      _ ≤ 2 ^ 32 := Nat.pow_le_pow_right (by decide) bound
  rw [set, BitVec.toNat_or, BitVec.toNat_setWidth, field, Nat.mod_eq_of_lt fits, sum,
    Math.or_eq_add_of_clear (Nat.mod_lt _ (Nat.two_pow_pos _)) clear]

end InstrBuilder

/-- `util::WildcardBits<u32>`: a value matches when its masked bits are one of `bits`. -/
structure WildcardBits where
  mask : U32
  bits : List U32

namespace WildcardBits

def test (pattern : WildcardBits) (value : U32) : Bool :=
  pattern.bits.any fun bits => value &&& pattern.mask == bits

/-- One character of the constructor's loop, from the last character at bit 0 upwards. -/
def addBit (pattern : U32 × U32) (entry : Char × ℕ) : Option (U32 × U32) :=
  match entry.1 with
  | '?' => some (pattern.1 &&& ~~~(1#32 <<< entry.2), pattern.2)
  | '1' => some (pattern.1, pattern.2 ||| (1#32 <<< entry.2))
  | '0' => some pattern
  | _ => none

/-- The `consteval` constructor from text; `none` is a compile-time error. -/
def ofText (expr : String) : Option WildcardBits :=
  let chars := expr.toList
  if chars.length > 32 then none
  else (chars.reverse.zipIdx.foldlM addBit ((Hakkun.bits chars.length).setWidth 32, 0)).map
    fun (mask, bits) => ⟨mask, [bits]⟩

end WildcardBits

end Hakkun
