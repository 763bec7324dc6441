import Hakkun.Machine.Core.Blocks
import Hakkun.Model.Util.Murmur
import Mathlib.Data.BitVec

/-! # Words of the murmur hashes

Both hashes join the bytes of a block to a word and mix it into their state. Mixing loses neither
the state nor the word. A word has every byte in its place, except behind a byte that is extended
by its sign: the higher bytes are all ones then.
-/

namespace Hakkun.Util.Murmur

open Machine.Core

variable {platform : Platform} {width size : ℕ} {read read' : Read}

/-! ## Joining bytes -/

/-- The bytes of a block, the first one lowest. -/
def joinBytes (platform : Platform) (width size : ℕ) (read : Read) : BitVec width :=
  (List.range size).foldl (fun word k => word ||| platform.widen width (read k) <<< (8 * k))
    (BitVec.ofNat width 0)

theorem getBlock_eq (i : ℕ) :
    getBlock platform read i = joinBytes platform 32 4 fun k => read (k + i * 4) := by
  simp only [joinBytes, List.range, List.range.loop, List.foldl_cons, List.foldl_nil, getBlock]
  rw [BitVec.zero_or]

theorem getBlock64_eq (i : ℕ) :
    getBlock64 platform read i = joinBytes platform 64 8 fun k => read (k + i * 8) := by
  simp only [joinBytes, List.range, List.range.loop, List.foldl_cons, List.foldl_nil, getBlock64]
  rw [BitVec.zero_or]

theorem joinBytes_congr (same : ∀ k < size, read k = read' k) :
    joinBytes platform width size read = joinBytes platform width size read' := by
  apply List.foldl_ext
  intro word k member
  rw [same k (List.mem_range.mp member)]

theorem joinBytes_ofBlock : OfBlock size (joinBytes platform width size) :=
  fun _ _ => joinBytes_congr

/-- A bit is set if that of some byte is. -/
theorem getLsbD_joinBytes {bit : ℕ} (inside : bit < width) :
    (joinBytes platform width size read).getLsbD bit = true ↔
      ∃ k < size, 8 * k ≤ bit ∧ (platform.widen width (read k)).getLsbD (bit - 8 * k) = true := by
  induction size with
  | zero => simp [joinBytes]
  | succ size ih =>
    rw [joinBytes, List.range_succ, List.foldl_append, ← joinBytes, List.foldl_cons, List.foldl_nil,
      BitVec.getLsbD_or, Bool.or_eq_true, ih, BitVec.getLsbD_shiftLeft]
    simp only [inside, decide_true, Bool.true_and, Bool.and_eq_true, Bool.not_eq_true',
      decide_eq_false_iff_not, not_lt, Nat.lt_succ_iff_lt_or_eq]
    grind

theorem getLsbD_widen_low {c : CChar} {bit : ℕ} (low : bit < 8) (inside : bit < width) :
    (platform.widen width c).getLsbD bit = c.getLsbD bit := by
  rw [Platform.widen]
  split
  · rw [BitVec.getLsbD_signExtend, if_pos low, decide_eq_true inside, Bool.true_and]
  · rw [BitVec.getLsbD_setWidth, decide_eq_true inside, Bool.true_and]

/-- Behind its own bits a byte is extended by its sign, if the platform has one. -/
theorem getLsbD_widen_high {c : CChar} {bit : ℕ} (high : 8 ≤ bit) (inside : bit < width) :
    (platform.widen width c).getLsbD bit = (platform.charSigned && c.msb) := by
  rw [Platform.widen]
  split
  · rename_i signed
    rw [BitVec.getLsbD_signExtend, if_neg (Nat.not_lt.mpr high), decide_eq_true inside, signed]
  · rename_i unsigned
    rw [BitVec.getLsbD_setWidth, decide_eq_true inside, Bool.true_and,
      BitVec.getLsbD_of_ge _ _ high, Bool.eq_false_iff.mpr unsigned, Bool.false_and]

/-- Without a sign before it, a byte has its place in the word. -/
theorem getLsbD_joinBytes_byte {k bit : ℕ} (whole : 8 * size ≤ width) (inside : k < size)
    (low : bit < 8) (clean : platform.charSigned = true → ∀ j < k, (read j).msb = false) :
    (joinBytes platform width size read).getLsbD (8 * k + bit) = (read k).getLsbD bit := by
  have fits : 8 * k + bit < width := by omega
  rw [Bool.eq_iff_iff, getLsbD_joinBytes fits]
  constructor
  · rintro ⟨j, -, before, set⟩
    rcases Nat.lt_or_ge j k with lower | upper
    · rw [getLsbD_widen_high (by omega) (by omega), Bool.and_eq_true] at set
      exact absurd set.2 (Bool.eq_false_iff.mp (clean set.1 j lower))
    · obtain rfl : j = k := by omega
      rwa [Nat.add_sub_cancel_left, getLsbD_widen_low low (by omega)] at set
  · intro set
    refine ⟨k, inside, Nat.le_add_right .., ?_⟩
    rwa [Nat.add_sub_cancel_left, getLsbD_widen_low low (by omega)]

/-- Words with different bytes in one place differ, unless signs are before it. -/
theorem joinBytes_ne {k : ℕ} (whole : 8 * size ≤ width) (inside : k < size)
    (clean : platform.charSigned = true → ∀ j < k, (read j).msb = false)
    (same : ∀ j < k, read j = read' j) (differs : read k ≠ read' k) :
    joinBytes platform width size read ≠ joinBytes platform width size read' := by
  intro equal
  apply differs
  apply BitVec.eq_of_getLsbD_eq
  intro bit low
  have clean' : platform.charSigned = true → ∀ j < k, (read' j).msb = false :=
    fun signed j below => same j below ▸ clean signed j below
  rw [← getLsbD_joinBytes_byte whole inside low clean, equal,
    getLsbD_joinBytes_byte whole inside low clean']

/-- The bytes behind a sign do not matter. -/
theorem joinBytes_of_sign {i : ℕ} (signed : platform.charSigned = true) (inside : i < size)
    (sign : (read i).msb = true) (same : ∀ k ≤ i, read k = read' k) :
    joinBytes platform width size read = joinBytes platform width size read' := by
  apply BitVec.eq_of_getLsbD_eq
  intro bit fits
  rw [Bool.eq_iff_iff, getLsbD_joinBytes fits, getLsbD_joinBytes fits]
  rcases Nat.lt_or_ge bit (8 * (i + 1)) with low | high
  · refine exists_congr fun k => and_congr_right fun _ => and_congr_right fun before => ?_
    rw [same k (by omega)]
  · have set : ∀ read : Read, (read i).msb = true →
        (platform.widen width (read i)).getLsbD (bit - 8 * i) = true := by
      intro read sign
      rw [getLsbD_widen_high (by omega) (by omega), signed, sign]
      rfl
    have sign' : (read' i).msb = true := same i (le_refl i) ▸ sign
    exact iff_of_true ⟨i, inside, by omega, set read sign⟩ ⟨i, inside, by omega, set read' sign'⟩

/-! ## Mixing -/

theorem rotateLeft32_injective {r : ℕ} (inside : r < 32) :
    Function.Injective fun x => rotateLeft32 x r := by
  intro x y equal
  apply BitVec.eq_of_getLsbD_eq
  intro bit fits
  have same := congrArg (fun word => word.getLsbD ((bit + r) % 32)) equal
  simp only [rotateLeft32, BitVec.getLsbD_or, BitVec.getLsbD_shiftLeft, BitVec.getLsbD_ushiftRight]
    at same
  rcases Nat.lt_or_ge (bit + r) 32 with low | high
  · rw [Nat.mod_eq_of_lt low] at same
    have past (word : U32) : word.getLsbD (32 - r + (bit + r)) = false :=
      BitVec.getLsbD_of_ge _ _ (by omega)
    simpa [past, low] using same
  · have wrapped : (bit + r) % 32 = bit + r - 32 := by omega
    have back : 32 - r + (bit + r - 32) = bit := by omega
    have below : bit + r - 32 < r := by omega
    rw [wrapped, back] at same
    simpa [below] using same

theorem mul_injective {c d : BitVec width} (inverse : c * d = 1) :
    Function.Injective fun x => x * c :=
  (IsUnit.of_mul_eq_one d inverse).mul_left_injective

/-- The terms of an exclusive or may change sides. -/
theorem xor_exchange {a b c d : BitVec width} (same : a ^^^ b = c ^^^ d) : a ^^^ c = b ^^^ d := by
  apply BitVec.eq_of_getLsbD_eq
  intro bit _
  have bits := congrArg (fun word => word.getLsbD bit) same
  simp only [BitVec.getLsbD_xor] at bits ⊢
  revert bits
  cases a.getLsbD bit <;> cases b.getLsbD bit <;> cases c.getLsbD bit <;> cases d.getLsbD bit <;>
    decide

/-- A word that is mixed with its higher bits is not lost: the distance of two words that give the
same would be its own shift. -/
theorem xorShift_injective {shift : ℕ} (positive : 0 < shift) :
    Function.Injective fun x : BitVec width => x ^^^ x >>> shift := by
  intro x y same
  have distance : x ^^^ y = (x ^^^ y) >>> shift := by
    rw [BitVec.ushiftRight_xor_distrib]
    exact xor_exchange same
  have shifted : (x ^^^ y).toNat = (x ^^^ y).toNat / 2 ^ shift := by
    rw [← Nat.shiftRight_eq_div_pow, ← BitVec.toNat_ushiftRight, ← distance]
  have none : (x ^^^ y).toNat = 0 := by
    by_contra some
    have less := Nat.div_lt_self (Nat.pos_of_ne_zero some) (Nat.one_lt_two_pow positive.ne')
    omega
  exact BitVec.xor_eq_zero_iff.mp (BitVec.eq_of_toNat_eq none)

theorem xor_left_injective (y : BitVec width) : Function.Injective fun x => x ^^^ y :=
  fun _ _ => (BitVec.xor_left_inj y).mp

theorem xor_right_injective (x : BitVec width) : Function.Injective fun y => x ^^^ y :=
  fun _ _ => (BitVec.xor_right_inj x).mp

namespace HashMurmur32Impl

/-- What follows the exclusive or with the word. -/
theorem round_injective : Function.Injective fun x => rotateLeft32 x 13 * 5 + c3 := by
  have times : Function.Injective fun x : U32 => x * 5 := mul_injective (d := 0xcccccccd) rfl
  intro x y equal
  exact rotateLeft32_injective (by decide) (times (add_right_cancel equal))

theorem mix_state_injective (k1 : U32) : Function.Injective fun h => mix h k1 :=
  round_injective.comp (xor_left_injective _)

theorem mix_injective (h : U32) : Function.Injective (mix h) := by
  have first : Function.Injective fun x => x * c1 := mul_injective (d := 0xdee13bb1) rfl
  have second : Function.Injective fun x => x * c2 := mul_injective (d := 0x56ed309b) rfl
  exact round_injective.comp ((xor_right_injective h).comp
    (second.comp ((rotateLeft32_injective (by decide)).comp first)))

theorem mixBlocks_eq (nblocks : ℕ) (hashValue : U32) :
    mixBlocks platform read nblocks hashValue =
      (words 4 (joinBytes platform 32 4) read nblocks).foldl mix hashValue := by
  rw [mixBlocks, words, List.foldl_map]
  simp only [getBlock_eq]

end HashMurmur32Impl

namespace HashMurmur64Impl

theorem times_injective : Function.Injective fun x => x * cConstant :=
  mul_injective (d := 0x5f7a0ea7e59b19bd) rfl

theorem mix_state_injective (value : U64) : Function.Injective fun h => mix h value :=
  times_injective.comp (xor_right_injective _)

theorem mix_injective (h : U64) : Function.Injective (mix h) :=
  times_injective.comp ((xor_left_injective h).comp (times_injective.comp
    ((xorShift_injective (by decide)).comp times_injective)))

theorem mixBlocks_eq (nblocks : ℕ) (hashValue : U64) :
    mixBlocks platform read nblocks hashValue =
      (words 8 (joinBytes platform 64 8) read nblocks).foldl mix hashValue := by
  rw [mixBlocks, words, List.foldl_map]
  simp only [getBlock64_eq]

end HashMurmur64Impl

end Hakkun.Util.Murmur
