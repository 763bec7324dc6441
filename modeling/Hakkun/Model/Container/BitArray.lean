import Hakkun.Model.Core.Integer
import Hakkun.Model.Util.Algorithm

/-! # Packed arrays of bits

Translated from `hk/container/BitArray.h`. An index is an `s32`; a call that aborts has its message
as an error.
-/

namespace Hakkun

/-- `BitArray<Size>`; the storage is indexed by byte. -/
structure BitArray (Size : ℕ) where
  mStorage : ℕ → BitVec 8 := fun _ => 0

namespace BitArray

variable {Size : ℕ}

/-- `getByteIdxByBitIdx`. -/
def getByteIdxByBitIdx (bitIdx : ℤ) : ℤ := bitIdx / 8

def outOfBounds : String := "BitArray: index out of bounds (%d/%zu)"

def setBit (array : BitArray Size) (idx : ℤ) : Except String (BitArray Size) :=
  if idx ≥ 0 ∧ idx < Size then
    let byteIdx := (getByteIdxByBitIdx idx).toNat
    let bitIdx := (idx % 8).toNat
    .ok ⟨Function.update array.mStorage byteIdx (array.mStorage byteIdx ||| 1#8 <<< bitIdx)⟩
  else .error outOfBounds

def unset (array : BitArray Size) (idx : ℤ) : Except String (BitArray Size) :=
  if idx ≥ 0 ∧ idx < Size then
    let byteIdx := (getByteIdxByBitIdx idx).toNat
    let bitIdx := (idx % 8).toNat
    .ok ⟨Function.update array.mStorage byteIdx (array.mStorage byteIdx &&& ~~~(1#8 <<< bitIdx))⟩
  else .error outOfBounds

def get (array : BitArray Size) (idx : ℤ) : Except String Bool :=
  if idx ≥ 0 ∧ idx < Size then
    let byteIdx := (getByteIdxByBitIdx idx).toNat
    let bitIdx := (idx % 8).toNat
    .ok (array.mStorage byteIdx &&& 1#8 <<< bitIdx != 0)
  else .error outOfBounds

/-- `set` with a value. -/
def set (array : BitArray Size) (idx : ℤ) (value : Bool) : Except String (BitArray Size) :=
  if value then array.setBit idx else array.unset idx

/-- The bit at an index. -/
def occupied (array : BitArray Size) (index : ℕ) : Bool :=
  (array.mStorage (index / 8)).getLsbD (index % 8)

theorem toNat_byteIdx (index : ℕ) : (getByteIdxByBitIdx index).toNat = index / 8 := by
  unfold getByteIdxByBitIdx
  omega

theorem toNat_bitIdx (index : ℕ) : ((index : ℤ) % 8).toNat = index % 8 := by omega

/-- A bit in range is in the storage, also in a partly used last byte. -/
theorem byteIdx_lt {index : ℕ} (bound : index < Size) : index / 8 < (Size + 7) / 8 := by omega

theorem getLsbD_mask {shift k : ℕ} (bound : k < 8) :
    (1#8 <<< shift).getLsbD k = decide (k = shift) := by
  rw [BitVec.getLsbD_shiftLeft]
  rcases lt_trichotomy k shift with below | rfl | above
  · rw [decide_eq_true below, decide_eq_false below.ne, Bool.not_true, Bool.and_false,
      Bool.false_and]
  · rw [Nat.sub_self, decide_eq_true bound, decide_eq_false (lt_irrefl k), decide_eq_true rfl]
    rfl
  · rw [BitVec.getLsbD_one, decide_eq_false (show ¬ k - shift = 0 by omega),
      decide_eq_false above.ne', Bool.and_false, Bool.and_false]

/-- Testing a byte with a mask reads one bit. -/
theorem and_mask_ne_zero (byte : BitVec 8) {k : ℕ} (bound : k < 8) :
    (byte &&& 1#8 <<< k != 0) = byte.getLsbD k := by
  have zeroBit (j : ℕ) : (0 : BitVec 8).getLsbD j = false := BitVec.getLsbD_zero
  rw [Bool.eq_iff_iff, bne_iff_ne]
  constructor
  · intro nonzero
    by_contra clear
    apply nonzero
    apply BitVec.eq_of_getLsbD_eq
    intro j small
    rw [BitVec.getLsbD_and, getLsbD_mask small, zeroBit]
    rcases eq_or_ne j k with rfl | other
    · rw [Bool.not_eq_true] at clear
      rw [clear, Bool.false_and]
    · rw [decide_eq_false other, Bool.and_false]
  · intro bit zero
    have masked := congrArg (fun word : BitVec 8 => word.getLsbD k) zero
    simp only [BitVec.getLsbD_and, getLsbD_mask bound, bit, decide_true, Bool.and_self,
      zeroBit, Bool.true_eq_false] at masked

theorem get_eq (array : BitArray Size) {index : ℕ} (bound : index < Size) :
    array.get index = .ok (array.occupied index) := by
  have inside : (index : ℤ) ≥ 0 ∧ (index : ℤ) < Size := by omega
  rw [get, if_pos inside, toNat_byteIdx, toNat_bitIdx, occupied]
  exact congrArg Except.ok (and_mask_ne_zero _ (Nat.mod_lt _ (by decide)))

theorem get_error (array : BitArray Size) {idx : ℤ} (outside : idx < 0 ∨ Size ≤ idx) :
    array.get idx = .error outOfBounds := by
  rw [get, if_neg]
  omega

/-- Changing one bit of a byte changes the occupancy of one index. -/
theorem occupied_update (array : BitArray Size) (index : ℕ) (value : Bool) (byte : BitVec 8)
    (bits : ∀ k < 8, byte.getLsbD k =
      if k = index % 8 then value else (array.mStorage (index / 8)).getLsbD k) (j : ℕ) :
    (⟨Function.update array.mStorage (index / 8) byte⟩ : BitArray Size).occupied j =
      if j = index then value else array.occupied j := by
  unfold occupied
  by_cases sameByte : j / 8 = index / 8
  · simp only [sameByte, Function.update_self]
    rw [bits _ (Nat.mod_lt _ (by decide))]
    have same : j % 8 = index % 8 ↔ j = index := by omega
    simp only [same]
  · simp only [Function.update_of_ne sameByte]
    rw [if_neg (fun same => sameByte (congrArg (· / 8) same))]

/-- Setting a bit changes no other one. -/
theorem set_eq (array : BitArray Size) {index : ℕ} (bound : index < Size) (value : Bool) :
    ∃ after, array.set index value = .ok after ∧
      ∀ j, after.occupied j = if j = index then value else array.occupied j := by
  have inside : (index : ℤ) ≥ 0 ∧ (index : ℤ) < Size := by omega
  cases value with
  | true =>
    refine ⟨_, by rw [set, if_pos rfl, setBit, if_pos inside], ?_⟩
    rw [toNat_byteIdx, toNat_bitIdx]
    refine occupied_update array index true _ fun k small => ?_
    rw [BitVec.getLsbD_or, getLsbD_mask small]
    split_ifs with here
    · rw [decide_eq_true here, Bool.or_true]
    · rw [decide_eq_false here, Bool.or_false]
  | false =>
    refine ⟨_, by rw [set, if_neg Bool.false_ne_true, unset, if_pos inside], ?_⟩
    rw [toNat_byteIdx, toNat_bitIdx]
    refine occupied_update array index false _ fun k small => ?_
    rw [BitVec.getLsbD_and, BitVec.getLsbD_not, getLsbD_mask small]
    split_ifs with here
    · rw [decide_eq_true here, Bool.not_true, Bool.and_false, Bool.and_false]
    · rw [decide_eq_false here, decide_eq_true small, Bool.not_false, Bool.and_true,
        Bool.and_true]

end BitArray

end Hakkun
