import Mathlib.Data.BitVec

/-! # The lowest bit in which two words differ

Two words differ first at a bit when they agree below it and not at it. A multiplication by an odd
number and an exclusive or with one word leave that bit where it is, and a rotation moves it as long
as the bits below it stay together.
-/

namespace Hakkun.Math

variable {w : ℕ}

/-- The words agree in the `m` lowest bits, and not in the next one. -/
structure FirstDiffers (m : ℕ) (x y : BitVec w) : Prop where
  below : x.setWidth m = y.setWidth m
  differs : x.setWidth (m + 1) ≠ y.setWidth (m + 1)

namespace FirstDiffers

variable {m : ℕ} {x y z : BitVec w}

theorem setWidth_eq_iff {i : ℕ} :
    x.setWidth i = y.setWidth i ↔ ∀ bit < i, x.getLsbD bit = y.getLsbD bit := by
  constructor
  · intro same bit low
    have here := congrArg (fun word => word.getLsbD bit) same
    simpa only [BitVec.getLsbD_setWidth, low, decide_true, Bool.true_and] using here
  · intro bits
    apply BitVec.eq_of_getLsbD_eq
    intro bit low
    rw [BitVec.getLsbD_setWidth, BitVec.getLsbD_setWidth, bits bit low]

/-- The bit itself. -/
theorem getLsbD_ne (first : FirstDiffers m x y) : x.getLsbD m ≠ y.getLsbD m := by
  intro same
  apply first.differs
  rw [setWidth_eq_iff]
  intro bit low
  rcases Nat.lt_succ_iff_lt_or_eq.mp low with lower | rfl
  · exact setWidth_eq_iff.mp first.below bit lower
  · exact same

theorem of_bits (below : ∀ bit < m, x.getLsbD bit = y.getLsbD bit)
    (differs : x.getLsbD m ≠ y.getLsbD m) : FirstDiffers m x y :=
  ⟨setWidth_eq_iff.mpr below, fun same => differs (setWidth_eq_iff.mp same m (Nat.lt_succ_self m))⟩

/-- The distance of two words has the bit as its lowest one. -/
theorem of_xor (distance : FirstDiffers m (x ^^^ y) 0) : FirstDiffers m x y := by
  have bit (i : ℕ) : (x ^^^ y).getLsbD i = (0 : BitVec w).getLsbD i ↔
      x.getLsbD i = y.getLsbD i := by
    rw [BitVec.getLsbD_xor, BitVec.ofNat_eq_ofNat, BitVec.getLsbD_zero]
    cases x.getLsbD i <;> cases y.getLsbD i <;> decide
  apply of_bits
  · intro i low
    exact (bit i).mp (setWidth_eq_iff.mp distance.below i low)
  · exact fun same => distance.getLsbD_ne ((bit m).mpr same)

/-- A factor that has an inverse does not move the bit. -/
theorem of_mul {c d : BitVec w} (inverse : c * d = 1) (inside : m < w)
    (product : FirstDiffers m (x * c) (y * c)) : FirstDiffers m x y := by
  have undo (i : ℕ) (fits : i ≤ w) (word : BitVec w) :
      word.setWidth i = (word * c).setWidth i * d.setWidth i := by
    rw [← BitVec.setWidth_mul _ _ fits, mul_assoc, inverse, mul_one]
  constructor
  · rw [undo m inside.le x, undo m inside.le y, product.below]
  · intro same
    apply product.differs
    rw [BitVec.setWidth_mul _ _ inside, BitVec.setWidth_mul _ _ inside, same]

/-- Bits that are moved up together, where the bits below them may be any. -/
theorem of_moved {x' y' : BitVec w} {shift : ℕ}
    (moved : ∀ bit, bit + shift < w → x'.getLsbD (bit + shift) = x.getLsbD bit ∧
      y'.getLsbD (bit + shift) = y.getLsbD bit)
    (inside : m + shift < w) (first : FirstDiffers (m + shift) x' y') : FirstDiffers m x y := by
  apply of_bits
  · intro bit low
    obtain ⟨one, other⟩ := moved bit (by omega)
    rw [← one, ← other]
    exact setWidth_eq_iff.mp first.below _ (by omega)
  · obtain ⟨one, other⟩ := moved m inside
    rw [← one, ← other]
    exact first.getLsbD_ne

end FirstDiffers

end Hakkun.Math
