import Hakkun.Machine.A64.Instr

/-! # Addresses that are formed by two instructions

`ADRP` gives the page of an address; an `ADD` (immediate) or an `LDR` with an unsigned offset, each
of 64 bits, gives the rest of it.
-/

namespace Hakkun.A64

/-- `ADRP`: the page of the program counter, moved by a signed number of pages. -/
def adrpAddress (pc : BitVec 64) (imm : BitVec 21) : BitVec 64 :=
  (pc &&& ~~~0xfff#64) + (imm.signExtend 64 <<< 12)

/-- What an instruction does with the address in its base register. -/
inductive AddressUse where
  | sum (addend : BitVec 64)
  | load (offset : BitVec 64)
  | other
  deriving DecidableEq

/-- `ADD` (immediate) of 64 bits, and `LDR` (immediate, unsigned offset) of 64 bits, whose offset
counts words of 64 bits. -/
def addressUse (word : Word) : AddressUse :=
  match Instr.decode word with
  | .addSubImm true false sh imm _ _ =>
    .sum (if sh then imm.setWidth 64 <<< 12 else imm.setWidth 64)
  | _ =>
    if word.extractLsb' 22 10 = 0b1111100101 then
      .load ((word.extractLsb' 10 12).setWidth 64 <<< 3)
    else .other

namespace Instr

variable {word : Word}

/-- The fields that the words of an `ADRP` have. -/
theorem fields_of_adrp {rd : RegField} {imm : BitVec 21} (decoded : decode word = .adrp rd imm) :
    word.toNat / 2 ^ 24 % 2 ^ 5 = 0b10000 ∧ word.toNat / 2 ^ 31 % 2 = 1 ∧
      imm.toNat = word.toNat / 2 ^ 5 % 2 ^ 19 * 4 + word.toNat / 2 ^ 29 % 4 := by
  have immediate : decodeImmediate word = .adrp rd imm := by
    rw [← decoded]
    apply decodeImmediate_of_group
    rw [decoded]
    trivial
  unfold decodeImmediate at immediate
  split_ifs at immediate with kind sf
  all_goals cases immediate
  rw [← BitVec.toNat_inj, Math.toNat_field] at kind sf
  refine ⟨kind, sf, ?_⟩
  rw [Math.toNat_append_eq_add, Math.toNat_field, Math.toNat_field]
  rfl

/-- The fields that the words of an `ADD` or a `SUB` (immediate) have. -/
theorem fields_of_addSubImm {sf sub sh : Bool} {imm : BitVec 12} {rn rd : RegField}
    (decoded : decode word = .addSubImm sf sub sh imm rn rd) :
    word.toNat / 2 ^ 23 % 2 ^ 7 = 0b0100010 ∧ sf = decide (word.extractLsb' 31 1 = 1) ∧
      sub = decide (word.extractLsb' 30 1 = 1) := by
  have immediate : decodeImmediate word = .addSubImm sf sub sh imm rn rd := by
    rw [← decoded]
    apply decodeImmediate_of_group
    rw [decoded]
    trivial
  unfold decodeImmediate at immediate
  split_ifs at immediate with kind _ add
  all_goals cases immediate
  rw [← BitVec.toNat_inj, Math.toNat_field] at add
  exact ⟨add, rfl, rfl⟩

theorem decode_of_addSubImm (add : word.toNat / 2 ^ 23 % 2 ^ 7 = 0b0100010) :
    decode word = .addSubImm (word.extractLsb' 31 1 = 1) (word.extractLsb' 30 1 = 1)
      (word.extractLsb' 22 1 = 1) (word.extractLsb' 10 12) (word.extractLsb' 5 5)
      (word.extractLsb' 0 5) := by
  have group : word.extractLsb' 26 3 = 0b100 := by
    simp only [← BitVec.toNat_inj, Math.toNat_field, BitVec.reduceToNat]
    omega
  have kind : ¬ word.extractLsb' 24 5 = 0b10000 := by
    simp only [← BitVec.toNat_inj, Math.toNat_field, BitVec.reduceToNat]
    omega
  have field : word.extractLsb' 23 7 = 0b0100010 := by
    rw [← BitVec.toNat_inj, Math.toNat_field, add]
    rfl
  rw [decode, if_pos group, decodeImmediate, if_neg kind, if_pos field]

end Instr

variable {word : Word}

/-- The words of an `ADD` of 64 bits. -/
theorem addressUse_of_add (sf : word.toNat / 2 ^ 31 % 2 = 1)
    (add : word.toNat / 2 ^ 23 % 2 ^ 8 = 0b00100010) :
    addressUse word = .sum (if word.toNat / 2 ^ 22 % 2 = 1 then
      (word.extractLsb' 10 12).setWidth 64 <<< 12 else (word.extractLsb' 10 12).setWidth 64) := by
  have wide : word.extractLsb' 31 1 = 1 := by
    rw [← BitVec.toNat_inj, Math.toNat_field]
    exact sf
  have plus : ¬ word.extractLsb' 30 1 = 1 := by
    simp only [← BitVec.toNat_inj, Math.toNat_field, BitVec.reduceToNat]
    omega
  have shift : (word.extractLsb' 22 1 = 1) ↔ word.toNat / 2 ^ 22 % 2 = 1 := by
    rw [← BitVec.toNat_inj, Math.toNat_field]
    rfl
  rw [addressUse, Instr.decode_of_addSubImm (by omega), decide_eq_true wide, decide_eq_false plus]
  simp only [decide_eq_true_eq, shift]

/-- The words of an `LDR` of 64 bits. -/
theorem addressUse_of_load (load : word.toNat / 2 ^ 22 % 2 ^ 10 = 0b1111100101) :
    addressUse word = .load ((word.extractLsb' 10 12).setWidth 64 <<< 3) := by
  have field : word.extractLsb' 22 10 = 0b1111100101 := by
    rw [← BitVec.toNat_inj, Math.toNat_field, load]
    rfl
  rw [addressUse]
  split
  · rename_i decoded
    have := (Instr.fields_of_addSubImm decoded).1
    omega
  · rw [if_pos field]

/-- Every other word. -/
theorem addressUse_of_other
    (add : ¬ (word.toNat / 2 ^ 31 % 2 = 1 ∧ word.toNat / 2 ^ 23 % 2 ^ 8 = 0b00100010))
    (load : word.toNat / 2 ^ 22 % 2 ^ 10 ≠ 0b1111100101) : addressUse word = .other := by
  rw [addressUse]
  split
  · rename_i decoded
    obtain ⟨field, sf, sub⟩ := Instr.fields_of_addSubImm decoded
    have wide := of_decide_eq_true sf.symm
    have plus := of_decide_eq_false sub.symm
    simp only [← BitVec.toNat_inj, Math.toNat_field, BitVec.reduceToNat] at wide plus
    exact absurd ⟨by omega, by omega⟩ add
  · rw [if_neg]
    rw [← BitVec.toNat_inj, Math.toNat_field]
    exact load

end Hakkun.A64
