import Hakkun.Model.Core.Integer

/-! # Fields of instructions

Translated from `hk/hook/a64/Instrs.h`. A `ptrdiff` is its 64 bits.
-/

namespace Hakkun.Hook

abbrev Instr := U32

/-- `sizeof(Instr)`. -/
def cInstrSize : ℕ := 4

/-- The patterns of the instructions that are relative to the program counter. -/
def cwAdr : WildcardBits := ⟨0x9f000000, [0x10000000]⟩
def cwAdrp : WildcardBits := ⟨0x9f000000, [0x90000000]⟩

example : WildcardBits.ofText "0??10000????????????????????????" = some cwAdr := rfl
example : WildcardBits.ofText "1??10000????????????????????????" = some cwAdrp := rfl

def cwB : WildcardBits := ⟨0xfc000000, [0x14000000]⟩
def cwBL : WildcardBits := ⟨0xfc000000, [0x94000000]⟩
def cwBcond : WildcardBits := ⟨0xff000010, [0x54000000]⟩
def cwCbz : WildcardBits := ⟨0x7f000000, [0x34000000]⟩
def cwCbnz : WildcardBits := ⟨0x7f000000, [0x35000000]⟩
def cwTbz : WildcardBits := ⟨0x7f000000, [0x36000000]⟩
def cwTbnz : WildcardBits := ⟨0x7f000000, [0x37000000]⟩
def cwLdrLiteral : WildcardBits := ⟨0xbf000000, [0x18000000]⟩

example : WildcardBits.ofText "01010100???????????????????0????" = some cwBcond := rfl
example : WildcardBits.ofText "?0110111????????????????????????" = some cwTbnz := rfl
example : WildcardBits.ofText "0?011000????????????????????????" = some cwLdrLiteral := rfl

/-- The low bits of `instr >> lower` in a `u32`. -/
def grab (instr : Instr) (lower width : ℕ) : U32 :=
  ((instr >>> lower).setWidth 64 &&& bits width).setWidth 32

theorem grab_toNat (instr : Instr) (lower : ℕ) {width : ℕ} (bound : width ≤ 32) :
    (grab instr lower width).toNat = instr.toNat / 2 ^ lower % 2 ^ width := by
  have small : instr.toNat / 2 ^ lower < 2 ^ 32 :=
    Nat.lt_of_le_of_lt (Nat.div_le_self _ _) instr.isLt
  have below := Nat.mod_le (instr.toNat / 2 ^ lower) (2 ^ width)
  have wide : instr.toNat / 2 ^ lower % 2 ^ 64 = instr.toNat / 2 ^ lower :=
    Nat.mod_eq_of_lt (Nat.lt_trans small (by decide))
  rw [grab, BitVec.toNat_setWidth, and_bits_toNat _ (by omega), BitVec.toNat_setWidth,
    BitVec.toNat_ushiftRight, Nat.shiftRight_eq_div_pow, wide]
  exact Nat.mod_eq_of_lt (Nat.lt_of_le_of_lt below small)

/-- `grabAdrAddend`. -/
def grabAdrAddend (instr : Instr) : U64 :=
  let immhi := grab instr 5 19
  let immlo := grab instr 29 2
  let imm := (immhi <<< 2) ||| immlo
  (signExtend imm 21).signExtend 64

/-- The two parts of the immediate of an `ADR`. -/
theorem imm_toNat {immhi immlo : U32} {width : ℕ} (narrow : width ≤ 20)
    (high : immhi.toNat < 2 ^ width) (low : immlo.toNat < 4) :
    (immhi <<< 2 ||| immlo).toNat = immhi.toNat * 4 + immlo.toNat := by
  have power : 2 ^ width ≤ 2 ^ 20 := Nat.pow_le_pow_right (by decide) narrow
  have shifted : (immhi <<< 2).toNat = immhi.toNat * 4 := by
    rw [BitVec.toNat_shiftLeft, Nat.shiftLeft_eq]
    omega
  have clear : immhi.toNat * 4 / 2 ^ 0 % 2 ^ 2 = 0 := by omega
  have split := Math.or_eq_add_of_clear low clear
  rw [BitVec.toNat_or, shifted]
  simpa only [Nat.pow_zero, Nat.mul_one] using split

/-- The immediate of 21 bits with its sign. -/
theorem grabAdrAddend_toNat (instr : Instr) :
    (grabAdrAddend instr).toNat =
      instr.toNat / 2 ^ 5 % 2 ^ 19 * 4 + instr.toNat / 2 ^ 29 % 2 ^ 2 +
        if 2 ^ 20 ≤ instr.toNat / 2 ^ 5 % 2 ^ 19 * 4 + instr.toNat / 2 ^ 29 % 2 ^ 2 then
          2 ^ 64 - 2 ^ 21 else 0 := by
  have high := grab_toNat instr 5 (show 19 ≤ 32 by decide)
  have low := grab_toNat instr 29 (show 2 ≤ 32 by decide)
  have parts := imm_toNat (show 19 ≤ 20 by decide) (by rw [high]; exact Nat.mod_lt _ (by decide))
    (by rw [low]; exact Nat.mod_lt _ (by decide))
  rw [high, low] at parts
  have narrow : (grab instr 5 19 <<< 2 ||| grab instr 29 2).toNat < 2 ^ (20 + 1) := by omega
  have extended := signExtend_toNat (show 20 < 32 by decide) narrow
  rw [grabAdrAddend, BitVec.toNat_signExtend, BitVec.msb_eq_decide, BitVec.toNat_setWidth, extended,
    parts]
  generalize instr.toNat / 2 ^ 5 % 2 ^ 19 * 4 + instr.toNat / 2 ^ 29 % 2 ^ 2 = imm at *
  simp only [decide_eq_true_eq]
  split_ifs <;> omega

/-- `grabAdrpAddend`. -/
def grabAdrpAddend (instr : Instr) : U64 := grabAdrAddend instr * cPageSize

/-- `grabAdrAdrpAddr`. -/
def grabAdrAdrpAddr (instr : Instr) (pc : Ptr) : Ptr :=
  let isAdr := cwAdr.test instr
  let isAdrp := cwAdrp.test instr
  (if isAdrp then pc &&& ~~~bits 12 else pc) +
    if isAdr then grabAdrAddend instr else grabAdrpAddend instr

/-- The bits by which an `ADR` and an `ADRP` are known. -/
theorem adrMask_toNat (instr : Instr) :
    (instr &&& 0x9f000000#32).toNat =
      instr.toNat / 2 ^ 31 % 2 ^ 1 * 2 ^ 31 + instr.toNat / 2 ^ 24 % 2 ^ 5 * 2 ^ 24 := by
  have mask : (0x9f000000#32).toNat = (2 ^ 1 - 1) * 2 ^ 31 ||| (2 ^ 5 - 1) * 2 ^ 24 := rfl
  rw [BitVec.toNat_and, mask, Nat.and_or_distrib_left, Math.and_shifted_mask,
    Math.and_shifted_mask]
  exact Math.or_eq_add_of_clear (Nat.mod_lt _ (by decide)) (by omega)

theorem grabAdrAdrpAddr_of_adr {instr : Instr} {pc : Ptr}
    (kind : instr.toNat / 2 ^ 24 % 2 ^ 5 = 0b10000) (bytes : instr.toNat / 2 ^ 31 % 2 = 0) :
    grabAdrAdrpAddr instr pc = pc + grabAdrAddend instr := by
  have masked : instr &&& 0x9f000000#32 = 0x10000000#32 := by
    rw [← BitVec.toNat_inj, adrMask_toNat, kind, Nat.pow_one, bytes]
    rfl
  simp [grabAdrAdrpAddr, WildcardBits.test, cwAdr, cwAdrp, masked]

theorem grabAdrAdrpAddr_of_adrp {instr : Instr} {pc : Ptr}
    (kind : instr.toNat / 2 ^ 24 % 2 ^ 5 = 0b10000) (pages : instr.toNat / 2 ^ 31 % 2 = 1) :
    grabAdrAdrpAddr instr pc = (pc &&& ~~~bits 12) + grabAdrpAddend instr := by
  have masked : instr &&& 0x9f000000#32 = 0x90000000#32 := by
    rw [← BitVec.toNat_inj, adrMask_toNat, kind, Nat.pow_one, pages]
    rfl
  simp [grabAdrAdrpAddr, WildcardBits.test, cwAdr, cwAdrp, masked]

/-- `grabBBLAddr`. -/
def grabBBLAddr (instr : Instr) (pc : Ptr) : Ptr :=
  let imm26 := grab instr 0 26
  let offset := signExtend imm26 26
  pc + offset.signExtend 64 * BitVec.ofNat 64 cInstrSize

end Hakkun.Hook
