import Hakkun.Machine.A64.Instr

/-! # Encoding inverts decoding

Every word is the encoding of the instruction that it is decoded to, so a word is known from its
instruction as well as an instruction from its word.
-/

namespace Hakkun.A64

namespace Instr

/-- A flag that is one bit. -/
private theorem bit_toNat (n : ℕ) : (decide (n % 2 ^ 1 = 1)).toNat = n % 2 ^ 1 := by
  rcases Nat.mod_two_eq_zero_or_one n with clear | set
  · rw [Nat.pow_one, clear]
    rfl
  · rw [Nat.pow_one, set]
    rfl

theorem field_iff {word : Word} {lo width : ℕ} {value : BitVec width} :
    word.extractLsb' lo width = value ↔ word.toNat / 2 ^ lo % 2 ^ width = value.toNat := by
  rw [← BitVec.toNat_inj, Math.toNat_field]

/-- The low bits of a number are a field and what is below it. -/
private theorem mod_split (n lo width : ℕ) :
    n % 2 ^ (lo + width) = n / 2 ^ lo % 2 ^ width * 2 ^ lo + n % 2 ^ lo := by
  rw [Nat.pow_add, Nat.mod_mul, Nat.add_comm, Nat.mul_comm]

theorem layout_decodeImmediate {word : Word} (group : word.toNat / 2 ^ 26 % 2 ^ 3 = 0b100) :
    (decodeImmediate word).layout = word.toNat := by
  have whole : word.toNat % 2 ^ (31 + 1) = word.toNat := Nat.mod_eq_of_lt word.isLt
  have low := mod_split word.toNat 0 5
  have high := mod_split word.toNat 31 1
  simp only [decodeImmediate, field_iff, BitVec.reduceToNat]
  split_ifs with address page add move
  · have immhi := mod_split word.toNat 5 19
    have kind := mod_split word.toNat 24 5
    have immlo := mod_split word.toNat 29 2
    simp only [layout, Math.toNat_field, Math.toNat_append_eq_add]
    generalize word.toNat = n at *
    omega
  · have immhi := mod_split word.toNat 5 19
    have kind := mod_split word.toNat 24 5
    have immlo := mod_split word.toNat 29 2
    simp only [layout, Math.toNat_field, Math.toNat_append_eq_add]
    generalize word.toNat = n at *
    omega
  · have rn := mod_split word.toNat 5 5
    have imm := mod_split word.toNat 10 12
    have sh := mod_split word.toNat 22 1
    have kind := mod_split word.toNat 23 7
    have op := mod_split word.toNat 30 1
    simp only [layout, Math.toNat_field, bit_toNat]
    generalize word.toNat = n at *
    omega
  · have imm := mod_split word.toNat 5 16
    have hw := mod_split word.toNat 21 2
    have kind := mod_split word.toNat 23 6
    have opc := mod_split word.toNat 29 2
    simp only [layout, Math.toNat_field, bit_toNat]
    generalize word.toNat = n at *
    omega
  · rfl

theorem layout_decodeBranch {word : Word} (group : word.toNat / 2 ^ 26 % 2 ^ 3 = 0b101) :
    (decodeBranch word).layout = word.toNat := by
  have whole : word.toNat % 2 ^ (31 + 1) = word.toNat := Nat.mod_eq_of_lt word.isLt
  have low := mod_split word.toNat 0 5
  have high := mod_split word.toNat 31 1
  simp only [decodeBranch, field_iff, BitVec.reduceToNat]
  split_ifs with branch link cond compare test br blr ret svc nop
  · have imm := mod_split word.toNat 0 26
    have kind := mod_split word.toNat 26 5
    simp only [layout, Math.toNat_field]
    generalize word.toNat = n at *
    omega
  · have imm := mod_split word.toNat 0 26
    have kind := mod_split word.toNat 26 5
    simp only [layout, Math.toNat_field]
    generalize word.toNat = n at *
    omega
  · have cond := mod_split word.toNat 0 4
    have clear := mod_split word.toNat 4 1
    have imm := mod_split word.toNat 5 19
    have kind := mod_split word.toNat 24 8
    simp only [layout, Math.toNat_field]
    generalize word.toNat = n at *
    omega
  · have imm := mod_split word.toNat 5 19
    have nonzero := mod_split word.toNat 24 1
    have kind := mod_split word.toNat 25 6
    simp only [layout, Math.toNat_field, bit_toNat]
    generalize word.toNat = n at *
    omega
  · have imm := mod_split word.toNat 5 14
    have index := mod_split word.toNat 19 5
    have nonzero := mod_split word.toNat 24 1
    have kind := mod_split word.toNat 25 6
    simp only [layout, Math.toNat_field, Math.toNat_append_eq_add, bit_toNat]
    generalize word.toNat = n at *
    omega
  · have rn := mod_split word.toNat 5 5
    have kind := mod_split word.toNat 10 22
    simp only [layout, Math.toNat_field]
    generalize word.toNat = n at *
    omega
  · have rn := mod_split word.toNat 5 5
    have kind := mod_split word.toNat 10 22
    simp only [layout, Math.toNat_field]
    generalize word.toNat = n at *
    omega
  · have rn := mod_split word.toNat 5 5
    have kind := mod_split word.toNat 10 22
    simp only [layout, Math.toNat_field]
    generalize word.toNat = n at *
    omega
  · have imm := mod_split word.toNat 5 16
    have kind := mod_split word.toNat 21 11
    simp only [layout, Math.toNat_field]
    generalize word.toNat = n at *
    omega
  · rw [nop]
    rfl
  · rfl

theorem layout_decodeRegister (word : Word) : (decodeRegister word).layout = word.toNat := by
  have whole : word.toNat % 2 ^ (31 + 1) = word.toNat := Nat.mod_eq_of_lt word.isLt
  have rd := mod_split word.toNat 0 5
  have rn := mod_split word.toNat 5 5
  have rm := mod_split word.toNat 16 5
  have sf := mod_split word.toNat 31 1
  simp only [decodeRegister, field_iff, BitVec.reduceToNat]
  split_ifs with shifted extended logical
  · have amount := mod_split word.toNat 10 6
    have clear := mod_split word.toNat 21 1
    have shift := mod_split word.toNat 22 2
    have kind := mod_split word.toNat 24 6
    have op := mod_split word.toNat 30 1
    simp only [layout, Math.toNat_field, bit_toNat]
    generalize word.toNat = n at *
    omega
  · have amount := mod_split word.toNat 10 3
    have option := mod_split word.toNat 13 3
    have kind := mod_split word.toNat 21 9
    have op := mod_split word.toNat 30 1
    simp only [layout, Math.toNat_field, bit_toNat]
    generalize word.toNat = n at *
    omega
  · have amount := mod_split word.toNat 10 6
    have clear := mod_split word.toNat 21 1
    have shift := mod_split word.toNat 22 2
    have kind := mod_split word.toNat 24 5
    have opc := mod_split word.toNat 29 2
    simp only [layout, Math.toNat_field, bit_toNat]
    generalize word.toNat = n at *
    omega
  · rfl

/-- Encoding inverts decoding. -/
theorem encode_decode (word : Word) : (decode word).encode = word := by
  rw [← BitVec.toNat_inj, encode_toNat]
  have whole : word.toNat % 2 ^ (30 + 2) = word.toNat := Nat.mod_eq_of_lt word.isLt
  rw [decode]
  split_ifs with immediate branch register literal
  · exact layout_decodeImmediate (field_iff.mp immediate)
  · exact layout_decodeBranch (field_iff.mp branch)
  · exact layout_decodeRegister word
  · have rt := mod_split word.toNat 0 5
    have imm := mod_split word.toNat 5 19
    have clear := mod_split word.toNat 24 2
    have vector := mod_split word.toNat 26 1
    have kind := mod_split word.toNat 27 3
    have opc := mod_split word.toNat 30 2
    simp only [field_iff, BitVec.reduceToNat] at literal
    simp only [layout, field_iff, BitVec.reduceToNat, Math.toNat_field, bit_toNat]
    generalize word.toNat = n at *
    omega
  · rfl

/-- The word of an instruction that is decoded. -/
theorem eq_encode {word : Word} {i : Instr} (decoded : decode word = i) : word = i.encode := by
  rw [← decoded, encode_decode]

end Instr

end Hakkun.A64
