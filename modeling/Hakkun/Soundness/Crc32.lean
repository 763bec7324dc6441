import Hakkun.Math.Crc
import Hakkun.Model.Util.Crc32

/-! # The table of CRC-32

The table has, for each byte, what eight steps of the register make of it, so that a turn of the
loop is the eight steps with the bits of a byte of the data.
-/

namespace Hakkun.Util

open Math

/-- The polynomial of IEEE 802.3, reflected. -/
def ieeePolynomial : U32 := (0x04C11DB7 : U32).reverse

/-- The bits of bytes as they are sent, the lowest bit of a byte first. -/
def messageBits (data : List (BitVec 8)) : List Bool := data.flatMap fun byte => Crc.bitsOf byte 8

/-- The bitwise CRC-32 of IEEE 802.3, from a seed. -/
def ieeeCrc32 (data : List (BitVec 8)) (seed : U32) : U32 :=
  ~~~Crc.run ieeePolynomial (~~~seed) (messageBits data)

theorem cLut_eq : cLut = (List.range 256).map fun i =>
    (Crc.shift ieeePolynomial)^[8] (BitVec.ofNat 32 i) := by
  decide +kernel

theorem cLut_getD (index : BitVec 8) :
    cLut.getD index.toNat 0 = (Crc.shift ieeePolynomial)^[8] (index.setWidth 32) := by
  have bound : index.toNat < (List.range 256).length := by
    rw [List.length_range]
    exact index.isLt
  rw [cLut_eq, List.getD_eq_getElem?_getD, List.getElem?_map, List.getElem?_eq_getElem bound,
    List.getElem_range, Option.map_some, Option.getD_some, BitVec.ofNat_toNat]

/-- A turn of the loop is eight steps of the register. -/
theorem hashCrc32Step_eq (h : U32) (data : BitVec 8) :
    hashCrc32Step h data = Crc.run ieeePolynomial h (Crc.bitsOf data 8) := by
  have chunk : Crc.bitsOf data 8 = Crc.bitsOf (data.setWidth 32) 8 := by
    refine List.map_congr_left fun i member => ?_
    have := List.mem_range.mp member
    rw [BitVec.getLsbD_setWidth, decide_eq_true (by omega), Bool.true_and]
  have wide : (data.setWidth 32).toNat = data.toNat := BitVec.toNat_setWidth_of_le (by decide)
  have passed : data.setWidth 32 >>> 8 = 0#32 := by
    apply BitVec.eq_of_toNat_eq
    rw [BitVec.toNat_ushiftRight, wide, Nat.shiftRight_eq_div_pow, Nat.div_eq_of_lt data.isLt]
    rfl
  have index : (data.setWidth 32 ^^^ (h &&& 0xFF)).toNat =
      ((h ^^^ data.setWidth 32).setWidth 8).toNat := by
    have low : (h &&& 0xFF).toNat = h.toNat % 2 ^ 8 := by
      rw [BitVec.toNat_and]
      exact Nat.and_two_pow_sub_one_eq_mod _ 8
    rw [BitVec.toNat_xor, low, BitVec.setWidth_xor, BitVec.toNat_xor, BitVec.toNat_setWidth _ h,
      BitVec.toNat_setWidth 8, wide, Nat.mod_eq_of_lt data.isLt, Nat.xor_comm]
  have rest : (h ^^^ data.setWidth 32) >>> 8 = h >>> 8 := by
    rw [BitVec.ushiftRight_xor_distrib, passed, BitVec.xor_zero]
  rw [chunk, Crc.run_bitsOf, passed, BitVec.xor_zero, Crc.shift_iterate_split, rest, hashCrc32Step,
    index, cLut_getD]

theorem run_messageBits (data : List (BitVec 8)) (register : U32) :
    data.foldl hashCrc32Step register = Crc.run ieeePolynomial register (messageBits data) := by
  induction data generalizing register with
  | nil => rfl
  | cons byte data ih =>
    rw [List.foldl_cons, ih, hashCrc32Step_eq, messageBits, messageBits, List.flatMap_cons, Crc.run,
      Crc.run, Crc.run, List.foldl_append]

theorem xor_ones (value : U32) : value ^^^ 0xFFFFFFFF = ~~~value := by
  rw [← BitVec.xor_allOnes]
  rfl

/-- The hash goes on from the hash of what came before. -/
theorem hashCrc32_append (first second : List (BitVec 8)) (seed : U32) :
    hashCrc32 (first ++ second) seed = hashCrc32 second (hashCrc32 first seed) := by
  rw [hashCrc32, hashCrc32, hashCrc32, List.foldl_append,
    BitVec.xor_assoc (List.foldl hashCrc32Step (seed ^^^ _) first), BitVec.xor_self,
    BitVec.xor_zero]

/-- The table-driven hash is the bitwise one, and it can be computed in parts. -/
theorem hashCrc32_eq_ieeeCrc32 :
    (∀ data seed, hashCrc32 data seed = ieeeCrc32 data seed) ∧
      ∀ first second, hashCrc32 (first ++ second) 0 = hashCrc32 second (hashCrc32 first 0) := by
  constructor
  · intro data seed
    rw [hashCrc32, xor_ones, xor_ones, run_messageBits, ieeeCrc32]
  · intro first second
    exact hashCrc32_append first second 0

/-- The check of the source. -/
example : hashCrc32 [0x6d, 0x65, 0x6f, 0x77] 0 = 0x8a106afe := by decide +kernel

end Hakkun.Util
