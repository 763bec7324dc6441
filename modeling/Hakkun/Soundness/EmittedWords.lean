import Hakkun.Machine.A64.Step
import Hakkun.Model.Hook.Emitter
import Hakkun.Soundness.BranchPatching
import Hakkun.Soundness.MovImm
import Hakkun.Soundness.PcRelative

/-! # The words of emitted instructions

Each instruction that the emitter assembles is the encoding of the A64 instruction that it names,
with the operands that it was given: the registers are X registers, and the displacements and the
immediates are in range.
-/

namespace Hakkun.Hook

open A64

/-! ## Registers and 16-bit parts -/

theorem operandRegister_of_general {r : IRegType} (general : r.toNat < 64) :
    operandRegister (r.setWidth 64) = some r := by
  have inRange : r.setWidth 64 < IRegType.max.setWidth 64 := by
    rw [BitVec.lt_def, BitVec.toNat_setWidth, show (IRegType.max.setWidth 64 : U64).toNat = 223 from
      rfl]
    omega
  have operand : (r.setWidth 64).setWidth 8 = r := by
    rw [← BitVec.toNat_inj, BitVec.toNat_setWidth, BitVec.toNat_setWidth]
    omega
  have notSp : ¬ r = IRegType.SP := by
    rintro rfl
    exact absurd general (by decide)
  rw [operandRegister, if_pos inRange, operand]
  dsimp only
  rw [if_neg notSp]

/-- A register X0 to X30. -/
def General (r : IRegType) : Prop := r.toNat < 31

instance (r : IRegType) : Decidable (General r) := inferInstanceAs (Decidable (_ < _))

theorem General.isX {r : IRegType} (general : General r) : isX r = true := by
  have clear : r &&& IRegType.W = 0 := by
    have bit : (r &&& IRegType.W).toNat = r.toNat / 2 ^ 5 % 2 ^ 1 * 2 ^ 5 := by
      rw [BitVec.toNat_and, show IRegType.W.toNat = (2 ^ 1 - 1) * 2 ^ 5 from rfl,
        Math.and_shifted_mask]
    rw [← BitVec.toNat_inj, bit]
    rw [General] at general
    exact (show r.toNat / 2 ^ 5 % 2 ^ 1 * 2 ^ 5 = 0 by omega)
  rw [Hook.isX, isW, clear]
  rfl

theorem General.field_toNat {r : IRegType} (general : General r) : (field r).toNat = r.toNat := by
  rw [field, BitVec.toNat_setWidth, reg_toNat]
  rw [General] at general
  omega

theorem General.field_ne {r : IRegType} (general : General r) : field r ≠ 31 := by
  intro same
  have number := congrArg BitVec.toNat same
  rw [general.field_toNat] at number
  rw [General] at general
  exact absurd number (show r.toNat ≠ 31 by omega)

theorem General.operand {r : IRegType} (general : General r) :
    operandRegister (r.setWidth 64) = some r :=
  operandRegister_of_general (Nat.lt_trans general (by decide))

theorem General.isW {r : IRegType} (general : General r) : isW r = false := by
  have wide := general.isX
  rwa [Hook.isX, Bool.not_eq_true'] at wide

theorem General.encodedRegister {r : IRegType} (general : General r) :
    encodedRegister (r.setWidth 64) = r := by
  have operand := general.operand
  rw [operandRegister] at operand
  split at operand
  · exact Option.some.inj operand
  · cases operand

/-- The operands of an instruction with one register. -/
theorem General.registers {r : IRegType} (general : General r) {imm : U64} :
    let operands : Operands := { rd := r.setWidth 64, imm := imm }
    operands.rd < IRegType.max.setWidth 64 ∧ operands.rn < IRegType.max.setWidth 64 ∧
      operands.rm < IRegType.max.setWidth 64 := by
  have zero : (0 : U64) < IRegType.max.setWidth 64 := by decide
  refine ⟨?_, zero, zero⟩
  have operand := general.operand
  rw [operandRegister] at operand
  split at operand
  · assumption
  · cases operand

theorem part16_eq (value : U64) (i : ℕ) :
    part16 value i = (half value i).setWidth 64 := by
  rw [← BitVec.toNat_inj, part16, and_bits_toNat _ (by decide), half, BitVec.toNat_setWidth,
    Math.toNat_field, BitVec.toNat_ushiftRight, Nat.shiftRight_eq_div_pow]
  omega

theorem part16_inj {value pc : U64} {i : ℕ} :
    part16 value i = part16 pc i ↔ half value i = half pc i := by
  rw [part16_eq, part16_eq]
  constructor
  · intro same
    have narrow := congrArg (BitVec.setWidth 16) same
    rwa [BitVec.setWidth_setWidth_of_le _ (by decide), BitVec.setWidth_setWidth_of_le _ (by decide),
      BitVec.setWidth_eq, BitVec.setWidth_eq] at narrow
  · exact congrArg _

/-! ## `MOVK` and `ADD` -/

/-- The word that the emitter assembles for a part. -/
def movkWord (r : IRegType) (value : U64) (i : ℕ) : Instr :=
  (A64.Instr.moveWide true Instr.movk (BitVec.ofNat 2 i) (half value i) (field r)).encode

theorem assembleMovk_part {r : IRegType} (general : General r) (value : U64) {i : ℕ}
    (small : i < 4) :
    assembleMovk (r.setWidth 64) (part16 value i) (BitVec.ofNat 64 (i * 16)) =
      some (movkWord r value i) := by
  have accepted : canBeImm16Shift4xNeg (part16 value i) = true := by
    rw [canBeImm16Shift4xNeg_iff]
    refine .inl ⟨0, by decide, (part16 value i).toNat, ?_, (Nat.mul_one _).symm⟩
    rw [part16, and_bits_toNat _ (by decide)]
    exact Nat.mod_lt _ (by decide)
  have shift : BitVec.ofNat 64 (i * 16) = 0 ∨ BitVec.ofNat 64 (i * 16) = 16 ∨
      BitVec.ofNat 64 (i * 16) = 32 ∨ BitVec.ofNat 64 (i * 16) = 48 := by
    interval_cases i <;> decide
  have hw : ((BitVec.ofNat 64 (i * 16) / 16).setWidth 32 : U32) =
      (BitVec.ofNat 2 i).setWidth 32 := by
    interval_cases i <;> rfl
  have imm : ((part16 value i).setWidth 32 : U32) = (half value i).setWidth 32 := by
    rw [part16_eq, BitVec.setWidth_setWidth_of_le _ (by decide)]
  have word := moveWide_word r (show cOpMovk.toNat = Instr.movk.toNat * 2 ^ 6 + 0b100101 from rfl)
    (BitVec.ofNat 2 i) (half value i)
  rw [assembleMovk, general.operand, Option.bind_some, if_pos accepted, if_pos shift, hw, imm, word,
    general.isX, movkWord]

/-- The word that the emitter assembles for the low bits of an address. -/
def addWord (r : IRegType) (value : U64) : Instr :=
  (A64.Instr.addSubImm true false false (value.setWidth 12) (field r) (field r)).encode

theorem assembleAddImm_lower {r : IRegType} (general : General r) (value : U64) :
    assembleAddImm true (r.setWidth 64) (r.setWidth 64) (value &&& bits 12) =
      some (addWord r value) := by
  have low := and_bits_toNat value (show 12 ≤ 64 by decide)
  have narrow : (((value &&& bits 12).setWidth 32 : U32)).toNat = value.toNat % 2 ^ 12 := by
    rw [BitVec.toNat_setWidth, low]
    omega
  have wide : (((value &&& bits 12).setWidth 32).setWidth 64 : U64).toNat =
      value.toNat % 2 ^ 12 := by
    rw [BitVec.toNat_setWidth, narrow]
    omega
  have accepted : canBeImm12Shift2x (((value &&& bits 12).setWidth 32).setWidth 64) = true := by
    have kept : ((value &&& bits 12).setWidth 32).setWidth 64 &&& (bits 12 <<< (0 * 12)) =
        ((value &&& bits 12).setWidth 32).setWidth 64 := by
      rw [Nat.zero_mul, BitVec.shiftLeft_zero, ← BitVec.toNat_inj, and_bits_toNat _ (by decide),
        wide]
      omega
    rw [canBeImm12Shift2x, canBeImm, Bool.false_and, Bool.or_false, isRepresentable,
      List.any_eq_true]
    exact ⟨0, by decide, beq_iff_eq.mpr kept⟩
  have unshifted : ¬ ((value &&& bits 12).setWidth 32).setWidth 64 > bits 12 := by
    rw [gt_iff_lt, BitVec.lt_def, wide, bits_toNat (by decide)]
    omega
  have register : ((reg r).setWidth 32 : U32).toNat = (field r).toNat := by
    rw [field, BitVec.toNat_setWidth, BitVec.toNat_setWidth, reg_toNat]
    omega
  have registerBound := (field r).isLt
  have head : ((((InstrBuilder.mk 0).set 31 31 1).set 30 23 cOpAddImm).set 22 22 0).mValue.toNat =
      0b100100010 * 2 ^ 23 := rfl
  have imm := InstrBuilder.set_toNat 12 (((value &&& bits 12).setWidth 32 : U32) >>> 0) head
    (show 21 + 1 = 10 + 12 from rfl) (by decide) (by decide) (by decide)
  rw [BitVec.ushiftRight_zero, narrow, Nat.mod_mod] at imm
  have rn := InstrBuilder.set_toNat 5 ((reg r).setWidth 32) imm
    (show 9 + 1 = 5 + 5 from rfl) (by decide) (by decide) (by omega)
  rw [register] at rn
  have rd := InstrBuilder.set_toNat 5 ((reg r).setWidth 32) rn
    (show 4 + 1 = 0 + 5 from rfl) (by decide) (by decide) (by omega)
  rw [register] at rd
  have low12 : (value.setWidth 12).toNat = value.toNat % 2 ^ 12 := BitVec.toNat_setWidth _ _
  rw [assembleAddImm, general.operand, Option.bind_some, Option.bind_some]
  simp only [accepted, unshifted, general.isX, if_true, decide_false, Bool.false_eq_true, if_false,
    BitVec.ushiftRight_zero]
  rw [addWord, Option.some.injEq, ← BitVec.toNat_inj, rd, A64.Instr.encode_toNat, A64.Instr.layout,
    low12]
  simp only [Bool.toNat_true, Bool.toNat_false]
  omega

/-! ## Displacements -/

/-- The absolute value of a difference. -/
theorem abs_toNat (value : U64) : (abs value).toNat = value.toInt.natAbs := by
  have signed := value.toInt_eq_toNat_cond
  have bound := value.isLt
  have negative : value.slt 0 = true ↔ value.toInt < 0 := by
    rw [BitVec.slt_iff_toInt_lt]
    rfl
  rw [abs]
  simp only [negative]
  split_ifs with below
  · rw [BitVec.toNat_neg]
    split at signed <;> omega
  · split at signed <;> omega

theorem abs_sub_comm (first second : U64) : abs (first - second) = abs (second - first) := by
  have negated : first - second = -(second - first) := by
    rw [BitVec.neg_sub, BitVec.add_comm, ← BitVec.sub_eq_add_neg]
  have signed := (second - first).toInt_eq_toNat_cond
  have flipped := (first - second).toInt_eq_toNat_cond
  rw [negated, BitVec.toNat_neg] at flipped
  rw [← BitVec.toNat_inj, abs_toNat, abs_toNat, negated]
  split at signed <;> split at flipped <;> omega

/-- A difference within a bound, in either order. -/
theorem abs_sub_le_iff {first second limit : U64} :
    abs (first - second) ≤ limit ↔
      -(limit.toNat : ℤ) ≤ (second - first).toInt ∧ (second - first).toInt ≤ limit.toNat := by
  rw [abs_sub_comm, BitVec.le_def, abs_toNat]
  omega

/-- The word of an `ADR` or `ADRP`, by its displacement. -/
theorem word_of_adr_fields {instr : Instr} {value : U64} {rd : IRegType} {isAdrp : Bool}
    (kind : instr.toNat / 2 ^ 24 % 2 ^ 5 = 0b10000)
    (pages : instr.toNat / 2 ^ 31 % 2 = isAdrp.toNat)
    (imm : instr.toNat / 2 ^ 5 % 2 ^ 19 * 4 + instr.toNat / 2 ^ 29 % 2 ^ 2 = value.toNat % 2 ^ 21)
    (low : instr.toNat % 2 ^ 5 = rd.toNat % 2 ^ 5) :
    instr = (if isAdrp then A64.Instr.adrp (field rd) (value.setWidth 21)
      else A64.Instr.adr (field rd) (value.setWidth 21)).encode := by
  have register : (field rd).toNat = rd.toNat % 2 ^ 5 := by
    rw [field, BitVec.toNat_setWidth, reg_toNat]
    omega
  have immediate : (value.setWidth 21).toNat = value.toNat % 2 ^ 21 := BitVec.toNat_setWidth _ _
  -- The fields of the word, from the low end up.
  have bound := instr.isLt
  have low5 := Nat.div_add_mod instr.toNat (2 ^ 5)
  have high : instr.toNat / 2 ^ 5 / 2 ^ 19 = instr.toNat / 2 ^ 24 := Nat.div_div_eq_div_mul ..
  have middle := Nat.div_add_mod (instr.toNat / 2 ^ 5) (2 ^ 19)
  have upper : instr.toNat / 2 ^ 24 / 2 ^ 5 = instr.toNat / 2 ^ 29 := Nat.div_div_eq_div_mul ..
  have kinds := Nat.div_add_mod (instr.toNat / 2 ^ 24) (2 ^ 5)
  have top : instr.toNat / 2 ^ 29 / 2 ^ 2 = instr.toNat / 2 ^ 31 := Nat.div_div_eq_div_mul ..
  have lows := Nat.div_add_mod (instr.toNat / 2 ^ 29) (2 ^ 2)
  have page : instr.toNat / 2 ^ 31 = isAdrp.toNat := by omega
  have loBound := Nat.mod_lt (instr.toNat / 2 ^ 29) (show 0 < 2 ^ 2 by decide)
  rw [high] at middle
  rw [upper, kind] at kinds
  rw [top, page] at lows
  have parts : (value.setWidth 21).toNat % 4 = instr.toNat / 2 ^ 29 % 2 ^ 2 ∧
      (value.setWidth 21).toNat / 4 = instr.toNat / 2 ^ 5 % 2 ^ 19 := by
    rw [immediate, ← imm]
    omega
  rw [← BitVec.toNat_inj, A64.Instr.encode_toNat]
  clear imm immediate pages page kind high upper top
  cases isAdrp
  · simp only [Bool.false_eq_true, if_false, A64.Instr.layout, register, ← low, parts.1, parts.2]
    rw [Bool.toNat_false] at lows
    omega
  · simp only [if_true, A64.Instr.layout, register, ← low, parts.1, parts.2]
    rw [Bool.toNat_true] at lows
    omega

theorem assemble_adr {r : IRegType} (general : General r) {pc value : U64}
    (back : -(2 ^ 21 : ℤ) ≤ (value - pc).toInt) (ahead : (value - pc).toInt < 2 ^ 21) :
    assemble .Adr { rd := r.setWidth 64, imm := value } pc =
      some (A64.Instr.adr (field r) ((value - pc).setWidth 21)).encode := by
  obtain ⟨instr, assembled, kind, pages, imm, low⟩ :=
    (assembleAdr_of_accepted false pc value general.isW rfl rfl).1
      ((canBeImm_neg_iff _ (by decide)).mpr ⟨back, ahead⟩)
  rw [assemble_of_registers general.registers, general.encodedRegister]
  refine assembled.trans ?_
  rw [word_of_adr_fields kind pages imm low]
  rfl

theorem assemble_adrp {r : IRegType} (general : General r) {pc value : U64}
    (aligned : value.toNat % 4096 = 0)
    (back : -(2 ^ 21 : ℤ) ≤ ((value - (pc &&& ~~~bits 12)).sshiftRight 12).toInt)
    (ahead : ((value - (pc &&& ~~~bits 12)).sshiftRight 12).toInt < 2 ^ 21) :
    assemble .Adrp { rd := r.setWidth 64, imm := value } pc =
      some (A64.Instr.adrp (field r)
        (((value - (pc &&& ~~~bits 12)).sshiftRight 12).setWidth 21)).encode := by
  have page : (true && !isAlignedPage value) = false := by
    rw [(isAlignedPage_iff _).mpr aligned]
    rfl
  obtain ⟨instr, assembled, kind, pages, imm, low⟩ :=
    (assembleAdr_of_accepted true pc value general.isW page rfl).1
      ((canBeImm_neg_iff _ (by decide)).mpr ⟨back, ahead⟩)
  rw [assemble_of_registers general.registers, general.encodedRegister]
  refine assembled.trans ?_
  rw [word_of_adr_fields kind pages imm low]
  rfl

/-- The word of a branch is that of the distance in words. -/
theorem makeUnconditionalBranch_eq (operand : UnconditionalBranchOp) {pc target : Ptr}
    (aligned : (target - pc).toNat % 4 = 0) :
    makeUnconditionalBranch operand pc target =
      (match operand with
        | .Branch => A64.Instr.b (BitVec.ofNat 26 ((target - pc).toNat / 4))
        | .BranchLink => A64.Instr.bl (BitVec.ofNat 26 ((target - pc).toNat / 4))).encode := by
  rw [← BitVec.toNat_inj, makeUnconditionalBranch_toNat operand aligned, A64.Instr.encode_toNat]
  cases operand <;> simp only [A64.Instr.layout, BitVec.toNat_ofNat] <;> exact Nat.add_comm _ _

theorem cBr_eq : cBr = (A64.Instr.br 16).encode := by decide

theorem cBlr_eq : cBlr = (A64.Instr.blr 16).encode := by decide

end Hakkun.Hook
