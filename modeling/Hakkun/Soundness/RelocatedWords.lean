import Hakkun.Machine.A64.BlockRun
import Hakkun.Machine.A64.Decode
import Hakkun.Model.Hook.Trampoline
import Hakkun.Soundness.EmittedCode

/-! # Words that a relocation tells apart

The patterns by which a relocation knows the instructions that are relative to the program counter
are those of the architecture, and what it reads from such a word are its operands.
-/

namespace Hakkun.Hook

open A64

/-- A pattern with one field. -/
theorem test_field {mask pattern : U32} (word : Instr) (lo width value : ℕ)
    (kept : mask.toNat = (2 ^ width - 1) * 2 ^ lo) (bits : pattern.toNat = value * 2 ^ lo) :
    (WildcardBits.mk mask [pattern]).test word = true ↔
      word.toNat / 2 ^ lo % 2 ^ width = value := by
  rw [WildcardBits.test, List.any_cons, List.any_nil, Bool.or_false, beq_iff_eq,
    ← BitVec.toNat_inj, BitVec.toNat_and, kept, bits, Math.and_shifted_mask]
  exact Nat.mul_left_inj (Nat.ne_of_gt (Nat.two_pow_pos lo))

/-- Two numbers with a part below a power of two are the same if both parts are. -/
theorem mul_add_eq_iff {m x y r t : ℕ} (small : r < m) (less : t < m) :
    x * m + r = y * m + t ↔ x = y ∧ r = t := by
  constructor
  · intro same
    have positive : 0 < m := Nat.lt_of_le_of_lt (Nat.zero_le r) small
    have quotient := congrArg (· / m) same
    simp only [Nat.mul_comm _ m, Nat.mul_add_div positive, Nat.div_eq_of_lt small,
      Nat.div_eq_of_lt less, Nat.add_zero] at quotient
    subst quotient
    exact ⟨rfl, Nat.add_left_cancel same⟩
  · rintro ⟨rfl, rfl⟩
    rfl

/-- A pattern with two fields. -/
theorem test_fields {mask pattern : U32} (word : Instr) {hi wide high lo width low : ℕ}
    (apart : lo + width ≤ hi) (small : low < 2 ^ width)
    (kept : mask.toNat = (2 ^ wide - 1) * 2 ^ hi ||| (2 ^ width - 1) * 2 ^ lo)
    (bits : pattern.toNat = high * 2 ^ hi + low * 2 ^ lo) :
    (WildcardBits.mk mask [pattern]).test word = true ↔
      word.toNat / 2 ^ hi % 2 ^ wide = high ∧ word.toNat / 2 ^ lo % 2 ^ width = low := by
  have power : 2 ^ hi = 2 ^ (hi - (lo + width)) * 2 ^ width * 2 ^ lo := by
    rw [← Nat.pow_add, ← Nat.pow_add]
    congr 1
    omega
  have below {field : ℕ} (fits : field < 2 ^ width) : field * 2 ^ lo < 2 ^ hi := by
    have fill : 2 ^ width ≤ 2 ^ (hi - (lo + width)) * 2 ^ width :=
      Nat.le_mul_of_pos_left _ (Nat.two_pow_pos _)
    rw [power]
    exact Nat.mul_lt_mul_of_pos_right (Nat.lt_of_lt_of_le fits fill) (Nat.two_pow_pos lo)
  have clear : word.toNat / 2 ^ hi % 2 ^ wide * 2 ^ hi / 2 ^ lo % 2 ^ width = 0 := by
    rw [power, ← Nat.mul_assoc, Nat.mul_div_cancel _ (Nat.two_pow_pos lo), ← Nat.mul_assoc]
    exact Nat.mul_mod_left _ _
  have field := Nat.mod_lt (word.toNat / 2 ^ lo) (Nat.two_pow_pos width)
  rw [WildcardBits.test, List.any_cons, List.any_nil, Bool.or_false, beq_iff_eq,
    ← BitVec.toNat_inj, BitVec.toNat_and, kept, bits, Nat.and_or_distrib_left,
    Math.and_shifted_mask, Math.and_shifted_mask, Math.or_eq_add_of_clear field clear,
    mul_add_eq_iff (below field) (below small)]
  exact and_congr_right' (Nat.mul_left_inj (Nat.ne_of_gt (Nat.two_pow_pos lo)))

section

variable {word : Instr}

theorem cwAdr_test_iff :
    cwAdr.test word = true ↔ ∃ rd imm, A64.Instr.decode word = .adr rd imm := by
  rw [cwAdr, test_fields word (show 24 + 5 ≤ 31 by decide) (show 0b10000 < 2 ^ 5 by decide)
    (show _ = (2 ^ 1 - 1) * 2 ^ 31 ||| (2 ^ 5 - 1) * 2 ^ 24 from rfl)
    (show _ = 0 * 2 ^ 31 + 0b10000 * 2 ^ 24 from rfl)]
  constructor
  · intro fields
    refine ⟨word.extractLsb' 0 5, word.extractLsb' 5 19 ++ word.extractLsb' 29 2, ?_⟩
    simp only [A64.Instr.decode, A64.Instr.decodeImmediate, A64.Instr.field_iff,
      BitVec.reduceToNat]
    rw [if_pos (by omega), if_pos (by omega), if_neg (by omega)]
  · rintro ⟨rd, imm, decoded⟩
    have sum := congrArg BitVec.toNat (A64.Instr.eq_encode decoded)
    have low : imm.toNat % 4 < 4 := Nat.mod_lt _ (by decide)
    have high : imm.toNat / 4 < 2 ^ 19 := by omega
    rw [A64.Instr.encode_toNat, A64.Instr.layout] at sum
    generalize imm.toNat / 4 = immhi, imm.toNat % 4 = immlo at *
    omega

theorem cwAdrp_test_iff :
    cwAdrp.test word = true ↔ ∃ rd imm, A64.Instr.decode word = .adrp rd imm := by
  rw [cwAdrp, test_fields word (show 24 + 5 ≤ 31 by decide) (show 0b10000 < 2 ^ 5 by decide)
    (show _ = (2 ^ 1 - 1) * 2 ^ 31 ||| (2 ^ 5 - 1) * 2 ^ 24 from rfl)
    (show _ = 1 * 2 ^ 31 + 0b10000 * 2 ^ 24 from rfl)]
  constructor
  · intro fields
    refine ⟨word.extractLsb' 0 5, word.extractLsb' 5 19 ++ word.extractLsb' 29 2, ?_⟩
    simp only [A64.Instr.decode, A64.Instr.decodeImmediate, A64.Instr.field_iff,
      BitVec.reduceToNat]
    rw [if_pos (by omega), if_pos (by omega), if_pos (by omega)]
  · rintro ⟨rd, imm, decoded⟩
    have sum := congrArg BitVec.toNat (A64.Instr.eq_encode decoded)
    have low : imm.toNat % 4 < 4 := Nat.mod_lt _ (by decide)
    have high : imm.toNat / 4 < 2 ^ 19 := by omega
    rw [A64.Instr.encode_toNat, A64.Instr.layout] at sum
    generalize imm.toNat / 4 = immhi, imm.toNat % 4 = immlo at *
    omega

theorem cwB_test_iff : cwB.test word = true ↔ ∃ imm, A64.Instr.decode word = .b imm := by
  rw [cwB, test_field word 26 6 0b000101 rfl rfl]
  constructor
  · intro fields
    refine ⟨word.extractLsb' 0 26, ?_⟩
    simp only [A64.Instr.decode, A64.Instr.decodeBranch, A64.Instr.field_iff, BitVec.reduceToNat]
    rw [if_neg (by omega), if_pos (by omega), if_pos (by omega), if_neg (by omega)]
  · rintro ⟨imm, decoded⟩
    have sum := congrArg BitVec.toNat (A64.Instr.eq_encode decoded)
    rw [A64.Instr.encode_toNat, A64.Instr.layout] at sum
    omega

theorem cwBL_test_iff : cwBL.test word = true ↔ ∃ imm, A64.Instr.decode word = .bl imm := by
  rw [cwBL, test_field word 26 6 0b100101 rfl rfl]
  constructor
  · intro fields
    refine ⟨word.extractLsb' 0 26, ?_⟩
    simp only [A64.Instr.decode, A64.Instr.decodeBranch, A64.Instr.field_iff, BitVec.reduceToNat]
    rw [if_neg (by omega), if_pos (by omega), if_pos (by omega), if_pos (by omega)]
  · rintro ⟨imm, decoded⟩
    have sum := congrArg BitVec.toNat (A64.Instr.eq_encode decoded)
    rw [A64.Instr.encode_toNat, A64.Instr.layout] at sum
    omega

theorem cwBcond_test_iff :
    cwBcond.test word = true ↔ ∃ cond imm, A64.Instr.decode word = .bcond cond imm := by
  rw [cwBcond, test_fields word (show 4 + 1 ≤ 24 by decide) (show 0 < 2 ^ 1 by decide)
    (show _ = (2 ^ 8 - 1) * 2 ^ 24 ||| (2 ^ 1 - 1) * 2 ^ 4 from rfl)
    (show _ = 0b01010100 * 2 ^ 24 + 0 * 2 ^ 4 from rfl)]
  constructor
  · intro fields
    refine ⟨word.extractLsb' 0 4, word.extractLsb' 5 19, ?_⟩
    simp only [A64.Instr.decode, A64.Instr.decodeBranch, A64.Instr.field_iff, BitVec.reduceToNat]
    rw [if_neg (by omega), if_pos (by omega), if_neg (by omega), if_pos (by omega)]
  · rintro ⟨cond, imm, decoded⟩
    have sum := congrArg BitVec.toNat (A64.Instr.eq_encode decoded)
    rw [A64.Instr.encode_toNat, A64.Instr.layout] at sum
    omega

/-- The pattern of a comparison with zero, for either sense. -/
theorem compare_test_iff {pattern : WildcardBits} (nonzero : Bool)
    (same : pattern = if nonzero then cwCbnz else cwCbz) :
    pattern.test word = true ↔
      ∃ sf imm rt, A64.Instr.decode word = .compareBranch sf nonzero imm rt := by
  have fields : pattern.test word = true ↔
      word.toNat / 2 ^ 24 % 2 ^ 7 = 0b0110100 + nonzero.toNat := by
    subst same
    cases nonzero
    · exact test_field word 24 7 0b0110100 rfl rfl
    · exact test_field word 24 7 0b0110101 rfl rfl
  rw [fields]
  constructor
  · intro fields
    refine ⟨word.extractLsb' 31 1 = 1, word.extractLsb' 5 19, word.extractLsb' 0 5, ?_⟩
    have sense : decide (word.toNat / 2 ^ 24 % 2 ^ 1 = 1) = nonzero := by
      cases nonzero with
      | false => exact decide_eq_false (by rw [Bool.toNat_false] at fields; omega)
      | true => exact decide_eq_true (by rw [Bool.toNat_true] at fields; omega)
    have bound := nonzero.toNat_lt
    simp only [A64.Instr.decode, A64.Instr.decodeBranch, A64.Instr.field_iff, BitVec.reduceToNat]
    rw [if_neg (by omega), if_pos (by omega), if_neg (by omega), if_neg (by omega),
      if_pos (by omega), sense]
  · rintro ⟨sf, imm, rt, decoded⟩
    have sum := congrArg BitVec.toNat (A64.Instr.eq_encode decoded)
    have bound := nonzero.toNat_lt
    have wide := sf.toNat_lt
    rw [A64.Instr.encode_toNat, A64.Instr.layout] at sum
    omega

/-- The pattern of a test of a bit, for either sense. -/
theorem bit_test_iff {pattern : WildcardBits} (nonzero : Bool)
    (same : pattern = if nonzero then cwTbnz else cwTbz) :
    pattern.test word = true ↔
      ∃ bit imm rt, A64.Instr.decode word = .testBranch nonzero bit imm rt := by
  have fields : pattern.test word = true ↔
      word.toNat / 2 ^ 24 % 2 ^ 7 = 0b0110110 + nonzero.toNat := by
    subst same
    cases nonzero
    · exact test_field word 24 7 0b0110110 rfl rfl
    · exact test_field word 24 7 0b0110111 rfl rfl
  rw [fields]
  constructor
  · intro fields
    refine ⟨word.extractLsb' 31 1 ++ word.extractLsb' 19 5, word.extractLsb' 5 14,
      word.extractLsb' 0 5, ?_⟩
    have sense : decide (word.toNat / 2 ^ 24 % 2 ^ 1 = 1) = nonzero := by
      cases nonzero with
      | false => exact decide_eq_false (by rw [Bool.toNat_false] at fields; omega)
      | true => exact decide_eq_true (by rw [Bool.toNat_true] at fields; omega)
    have bound := nonzero.toNat_lt
    simp only [A64.Instr.decode, A64.Instr.decodeBranch, A64.Instr.field_iff, BitVec.reduceToNat]
    rw [if_neg (by omega), if_pos (by omega), if_neg (by omega), if_neg (by omega),
      if_neg (by omega), if_pos (by omega), sense]
  · rintro ⟨bit, imm, rt, decoded⟩
    have sum := congrArg BitVec.toNat (A64.Instr.eq_encode decoded)
    have bound := nonzero.toNat_lt
    have index := bit.isLt
    rw [A64.Instr.encode_toNat, A64.Instr.layout] at sum
    omega

theorem cwCbz_test_iff : cwCbz.test word = true ↔
    ∃ sf imm rt, A64.Instr.decode word = .compareBranch sf false imm rt :=
  compare_test_iff false rfl

theorem cwCbnz_test_iff : cwCbnz.test word = true ↔
    ∃ sf imm rt, A64.Instr.decode word = .compareBranch sf true imm rt :=
  compare_test_iff true rfl

theorem cwTbz_test_iff : cwTbz.test word = true ↔
    ∃ bit imm rt, A64.Instr.decode word = .testBranch false bit imm rt := bit_test_iff false rfl

theorem cwTbnz_test_iff : cwTbnz.test word = true ↔
    ∃ bit imm rt, A64.Instr.decode word = .testBranch true bit imm rt := bit_test_iff true rfl

theorem cwLdrLiteral_test_iff :
    cwLdrLiteral.test word = true ↔
      ∃ opc imm rt, opc.toNat < 2 ∧ A64.Instr.decode word = .literal opc false imm rt := by
  rw [cwLdrLiteral, test_fields word (show 24 + 6 ≤ 31 by decide)
    (show 0b011000 < 2 ^ 6 by decide)
    (show _ = (2 ^ 1 - 1) * 2 ^ 31 ||| (2 ^ 6 - 1) * 2 ^ 24 from rfl)
    (show _ = 0 * 2 ^ 31 + 0b011000 * 2 ^ 24 from rfl)]
  constructor
  · intro fields
    have scalar : decide (word.toNat / 2 ^ 26 % 2 ^ 1 = 1) = false :=
      decide_eq_false (by omega)
    refine ⟨word.extractLsb' 30 2, word.extractLsb' 5 19, word.extractLsb' 0 5, ?_, ?_⟩
    · rw [Math.toNat_field]
      omega
    · simp only [A64.Instr.decode, A64.Instr.field_iff, BitVec.reduceToNat]
      rw [if_neg (by omega), if_neg (by omega), if_neg (by omega), if_pos (by omega), scalar]
  · rintro ⟨opc, imm, rt, small, decoded⟩
    have sum := congrArg BitVec.toNat (A64.Instr.eq_encode decoded)
    rw [A64.Instr.encode_toNat, A64.Instr.layout, Bool.toNat_false] at sum
    omega

/-! ## Operands -/

theorem grabRd_eq {rd : RegField} (low : word.toNat % 2 ^ 5 = rd.toNat) :
    grabRd word = rd.setWidth 8 := by
  rw [← BitVec.toNat_inj, grabRd_toNat, low, BitVec.toNat_setWidth]
  omega

/-- The register of a branch. -/
theorem grabRd_setWidth {rt : RegField} (low : word.toNat % 2 ^ 5 = rt.toNat) :
    (grabRd word).setWidth 64 = (rt.setWidth 64 : U64) := by
  rw [grabRd_eq low, ← BitVec.toNat_inj, BitVec.toNat_setWidth, BitVec.toNat_setWidth,
    BitVec.toNat_setWidth]
  omega

/-- A field of words with its sign. -/
theorem signExtend_grab {k lo : ℕ} {imm : BitVec (k + 1)} (narrow : k < 31)
    (field : word.toNat / 2 ^ lo % 2 ^ (k + 1) = imm.toNat) :
    (signExtend (grab word lo (k + 1)) (k + 1)).signExtend 64 * BitVec.ofNat 64 cInstrSize =
      wordOffset imm := by
  have power : 2 ^ k ≤ 2 ^ 30 := Nat.pow_le_pow_right (by decide) (by omega)
  have double : 2 ^ (k + 1) = 2 ^ k * 2 := Nat.pow_succ ..
  have grabbed := grab_toNat word lo (show k + 1 ≤ 32 by omega)
  have fits := imm.isLt
  rw [field] at grabbed
  have extended := signExtend_toNat (show k < 32 by omega) (by rw [grabbed]; exact fits)
  rw [wordOffset, ← BitVec.toNat_inj, BitVec.toNat_mul, BitVec.toNat_shiftLeft, Nat.shiftLeft_eq,
    BitVec.toNat_signExtend, BitVec.toNat_signExtend, BitVec.msb_eq_decide, BitVec.msb_eq_decide,
    BitVec.toNat_setWidth, BitVec.toNat_setWidth, extended, grabbed]
  simp only [decide_eq_true_eq, BitVec.toNat_ofNat, cInstrSize, Nat.add_sub_cancel]
  rw [double] at fits ⊢
  generalize imm.toNat = value at *
  generalize 2 ^ k = half at *
  clear extended grabbed field double
  split_ifs <;> omega

theorem grabAdrAddend_of_field {imm : BitVec 21}
    (field : word.toNat / 2 ^ 5 % 2 ^ 19 * 4 + word.toNat / 2 ^ 29 % 2 ^ 2 = imm.toNat) :
    grabAdrAddend word = imm.signExtend 64 := by
  have value : (imm.setWidth 64).toNat % 2 ^ 21 = imm.toNat := by
    have bound := imm.isLt
    rw [BitVec.toNat_setWidth]
    omega
  rw [grabAdrAddend_eq (field.trans value.symm), BitVec.setWidth_setWidth_of_le _ (by decide),
    BitVec.setWidth_eq]

/-- The fields of an address that is formed. -/
theorem fields_of_address {rd : RegField} {imm : BitVec 21} {page : ℕ}
    (sum : word.toNat = page * 2 ^ 31 + imm.toNat % 4 * 2 ^ 29 + 0b10000 * 2 ^ 24 +
      imm.toNat / 4 * 2 ^ 5 + rd.toNat) :
    word.toNat / 2 ^ 24 % 2 ^ 5 = 0b10000 ∧ word.toNat / 2 ^ 31 % 2 = page ∧
      word.toNat % 2 ^ 5 = rd.toNat ∧
      word.toNat / 2 ^ 5 % 2 ^ 19 * 4 + word.toNat / 2 ^ 29 % 2 ^ 2 = imm.toNat := by
  have low : imm.toNat % 4 < 4 := Nat.mod_lt _ (by decide)
  have high : imm.toNat / 4 < 2 ^ 19 := by omega
  have parts := Nat.div_add_mod imm.toNat 4
  generalize imm.toNat / 4 = immhi, imm.toNat % 4 = immlo at *
  have upper : word.toNat / 2 ^ 5 % 2 ^ 19 = immhi := by clear parts; omega
  have lower : word.toNat / 2 ^ 29 % 2 ^ 2 = immlo := by clear parts; omega
  rw [upper, lower]
  exact ⟨by clear parts; omega, by clear parts; omega, by clear parts; omega, by omega⟩

theorem grabAdrAdrpAddr_adr {rd : RegField} {imm : BitVec 21}
    (decoded : A64.Instr.decode word = .adr rd imm) (pc : Ptr) :
    grabAdrAdrpAddr word pc = pc + imm.signExtend 64 ∧ grabRd word = rd.setWidth 8 := by
  have sum := congrArg BitVec.toNat (A64.Instr.eq_encode decoded)
  rw [A64.Instr.encode_toNat, A64.Instr.layout] at sum
  obtain ⟨kind, bytes, low, field⟩ := fields_of_address
    (sum.trans (by rw [Nat.zero_mul, Nat.zero_add]))
  exact ⟨by rw [grabAdrAdrpAddr_of_adr kind bytes, grabAdrAddend_of_field field], grabRd_eq low⟩

theorem grabAdrAdrpAddr_adrp {rd : RegField} {imm : BitVec 21}
    (decoded : A64.Instr.decode word = .adrp rd imm) (pc : Ptr) :
    grabAdrAdrpAddr word pc = adrpAddress pc imm ∧ grabRd word = rd.setWidth 8 := by
  have sum := congrArg BitVec.toNat (A64.Instr.eq_encode decoded)
  rw [A64.Instr.encode_toNat, A64.Instr.layout] at sum
  obtain ⟨kind, paged, low, field⟩ := fields_of_address
    (sum.trans (by rw [Nat.one_mul]))
  have pages : imm.signExtend 64 * cPageSize = imm.signExtend 64 <<< 12 := by
    rw [← BitVec.toNat_inj, BitVec.toNat_mul, BitVec.toNat_shiftLeft, Nat.shiftLeft_eq,
      show cPageSize.toNat = 2 ^ 12 from rfl]
  refine ⟨?_, grabRd_eq low⟩
  rw [grabAdrAdrpAddr_of_adrp kind paged, grabAdrpAddend, grabAdrAddend_of_field field, pages]
  rfl

theorem grabBBLAddr_eq {imm : BitVec 26}
    (decoded : A64.Instr.decode word = .b imm ∨ A64.Instr.decode word = .bl imm) (pc : Ptr) :
    grabBBLAddr word pc = pc + wordOffset imm := by
  have field : word.toNat / 2 ^ 0 % 2 ^ (25 + 1) = imm.toNat := by
    have bound := imm.isLt
    rcases decoded with decoded | decoded
    · have sum := congrArg BitVec.toNat (A64.Instr.eq_encode decoded)
      rw [A64.Instr.encode_toNat, A64.Instr.layout] at sum
      omega
    · have sum := congrArg BitVec.toNat (A64.Instr.eq_encode decoded)
      rw [A64.Instr.encode_toNat, A64.Instr.layout] at sum
      omega
  exact congrArg (pc + ·) (signExtend_grab (by decide) field)

theorem grabRelativeAddr_eq {k : ℕ} {imm : BitVec (k + 1)} (narrow : k < 31)
    (field : word.toNat / 2 ^ 5 % 2 ^ (k + 1) = imm.toNat) (pc : Ptr) :
    grabRelativeAddr (k + 1) word pc = pc + wordOffset imm :=
  congrArg (pc + ·) (signExtend_grab narrow field)

end

/-! ## What is emitted for a word -/

section

variable {trampolineRx : Ptr} {out : VecSpan} {skipReturn isLast : Bool} {word : Instr}
  {origAddr : Ptr}

/-- A pattern of other instructions. -/
theorem test_eq_false {pattern : WildcardBits} {p : Prop} (known : pattern.test word = true ↔ p)
    (other : ¬ p) : pattern.test word = false := Bool.eq_false_iff.mpr (mt known.mp other)

theorem relocate_address {rd : RegField} {imm : BitVec 21} {target : Ptr}
    (decoded : (A64.Instr.decode word = .adr rd imm ∧ target = origAddr + imm.signExtend 64) ∨
      (A64.Instr.decode word = .adrp rd imm ∧ target = adrpAddress origAddr imm)) :
    relocate trampolineRx out skipReturn word origAddr isLast =
      (emitMovImmediate64 true trampolineRx out (rd.setWidth 8) target).map
        fun (_, out) => (out, skipReturn) := by
  rcases decoded with ⟨decoded, rfl⟩ | ⟨decoded, rfl⟩
  · obtain ⟨addr, register⟩ := grabAdrAdrpAddr_adr decoded origAddr
    have known := cwAdr_test_iff.mpr ⟨rd, imm, decoded⟩
    rw [relocate, known, Bool.true_or, if_pos rfl, addr, register]
  · obtain ⟨addr, register⟩ := grabAdrAdrpAddr_adrp decoded origAddr
    have known := cwAdrp_test_iff.mpr ⟨rd, imm, decoded⟩
    rw [relocate, known, Bool.or_true, if_pos rfl, addr, register]

/-- A word that does not form an address. -/
theorem test_address (other : ∀ rd imm, A64.Instr.decode word ≠ .adr rd imm ∧
    A64.Instr.decode word ≠ .adrp rd imm) :
    (cwAdr.test word || cwAdrp.test word) = false := by
  rw [test_eq_false cwAdr_test_iff fun ⟨rd, imm, same⟩ => (other rd imm).1 same,
    test_eq_false cwAdrp_test_iff fun ⟨rd, imm, same⟩ => (other rd imm).2 same]
  rfl

theorem relocate_b {imm : BitVec 26} (decoded : A64.Instr.decode word = .b imm) :
    relocate trampolineRx out skipReturn word origAddr isLast =
      if isLast then
        (emitBranch true trampolineRx out (origAddr + wordOffset imm) false).map
          fun (_, out) => (out, true)
      else none := by
  have plain : cwBL.test word = false := test_eq_false cwBL_test_iff (by simp [decoded])
  rw [relocate, test_address (by simp [decoded]), cwB_test_iff.mpr ⟨imm, decoded⟩, plain,
    grabBBLAddr_eq (.inl decoded)]
  cases isLast with
  | false =>
    simp only [Bool.false_eq_true, if_false, Bool.or_false, if_true, Bool.not_false, Bool.and_true]
  | true =>
    simp only [Bool.false_eq_true, if_false, Bool.or_false, if_true, Bool.not_true, Bool.and_false,
      Bool.true_or]

theorem relocate_bl {imm : BitVec 26} (decoded : A64.Instr.decode word = .bl imm) :
    relocate trampolineRx out skipReturn word origAddr isLast =
      (emitBranch true trampolineRx out (origAddr + wordOffset imm) true).map
        fun (_, out) => (out, skipReturn) := by
  have plain : cwB.test word = false := test_eq_false cwB_test_iff (by simp [decoded])
  rw [relocate, test_address (by simp [decoded]), cwBL_test_iff.mpr ⟨imm, decoded⟩, plain,
    grabBBLAddr_eq (.inr decoded)]
  simp only [Bool.false_eq_true, if_false, Bool.false_or, if_true, Bool.false_and]

/-- A word that is no branch without a condition. -/
theorem test_branch (other : ∀ imm, A64.Instr.decode word ≠ .b imm ∧
    A64.Instr.decode word ≠ .bl imm) : (cwB.test word || cwBL.test word) = false := by
  rw [test_eq_false cwB_test_iff fun ⟨imm, same⟩ => (other imm).1 same,
    test_eq_false cwBL_test_iff fun ⟨imm, same⟩ => (other imm).2 same]
  rfl

theorem relocate_bcond {cond : BitVec 4} {imm : BitVec 19}
    (decoded : A64.Instr.decode word = .bcond cond imm) :
    relocate trampolineRx out skipReturn word origAddr isLast =
      if isLast then
        (relocateConditional trampolineRx out .Bcond 0 ((cond ^^^ 1).setWidth 64)
          (origAddr + wordOffset imm)).map (·, skipReturn)
      else none := by
  have sum := congrArg BitVec.toNat (A64.Instr.eq_encode decoded)
  rw [A64.Instr.encode_toNat, A64.Instr.layout] at sum
  have field : word.toNat / 2 ^ 5 % 2 ^ (18 + 1) = imm.toNat := by omega
  have condition : grabBcondCond word ^^^ 1 = (cond ^^^ 1).setWidth 64 := by
    have grabbed : grabBcondCond word = cond.setWidth 64 := by
      rw [← BitVec.toNat_inj, grabBcondCond, BitVec.toNat_setWidth, grab_toNat _ _ (by decide),
        BitVec.toNat_setWidth]
      omega
    rw [grabbed, BitVec.setWidth_xor]
    rfl
  rw [relocate, test_address (by simp [decoded]), test_branch (by simp [decoded]),
    cwBcond_test_iff.mpr ⟨cond, imm, decoded⟩, condition, grabBcondCbzCbnzLdrRelativeAddr,
    grabRelativeAddr_eq (by decide) field]
  cases isLast <;> rfl

theorem relocate_compare {sf nonzero : Bool} {imm : BitVec 19} {rt : RegField}
    (decoded : A64.Instr.decode word = .compareBranch sf nonzero imm rt) :
    relocate trampolineRx out skipReturn word origAddr isLast =
      if isLast then
        (relocateConditional trampolineRx out (if nonzero then .Cbz else .Cbnz) (rt.setWidth 64) 0
          (origAddr + wordOffset imm)).map (·, skipReturn)
      else none := by
  have sum := congrArg BitVec.toNat (A64.Instr.eq_encode decoded)
  have bound := nonzero.toNat_lt
  have wide := sf.toNat_lt
  rw [A64.Instr.encode_toNat, A64.Instr.layout] at sum
  have field : word.toNat / 2 ^ 5 % 2 ^ (18 + 1) = imm.toNat := by omega
  have register := grabRd_setWidth (show word.toNat % 2 ^ 5 = rt.toNat by omega)
  have bcond : cwBcond.test word = false := test_eq_false cwBcond_test_iff (by simp [decoded])
  rw [relocate, test_address (by simp [decoded]), test_branch (by simp [decoded]), bcond, register,
    grabBcondCbzCbnzLdrRelativeAddr, grabRelativeAddr_eq (by decide) field]
  cases nonzero with
  | false =>
    have other : cwCbnz.test word = false := test_eq_false cwCbnz_test_iff (by simp [decoded])
    rw [cwCbz_test_iff.mpr ⟨sf, imm, rt, decoded⟩, other]
    cases isLast <;> rfl
  | true =>
    have other : cwCbz.test word = false := test_eq_false cwCbz_test_iff (by simp [decoded])
    rw [cwCbnz_test_iff.mpr ⟨sf, imm, rt, decoded⟩, other]
    cases isLast <;> rfl

/-- A word that is no conditional branch on flags or on a register. -/
theorem test_compare (other : ∀ sf nonzero imm rt,
    A64.Instr.decode word ≠ .compareBranch sf nonzero imm rt) :
    (cwCbz.test word || cwCbnz.test word) = false := by
  rw [test_eq_false cwCbz_test_iff fun ⟨sf, imm, rt, same⟩ => other sf _ imm rt same,
    test_eq_false cwCbnz_test_iff fun ⟨sf, imm, rt, same⟩ => other sf _ imm rt same]
  rfl

theorem relocate_bit {nonzero : Bool} {bit : BitVec 6} {imm : BitVec 14} {rt : RegField}
    (decoded : A64.Instr.decode word = .testBranch nonzero bit imm rt) :
    relocate trampolineRx out skipReturn word origAddr isLast =
      if isLast then
        (relocateConditional trampolineRx out (if nonzero then .Tbz else .Tbnz) (rt.setWidth 64)
          (bit.setWidth 64) (origAddr + wordOffset imm)).map (·, skipReturn)
      else none := by
  have sum := congrArg BitVec.toNat (A64.Instr.eq_encode decoded)
  have bound := nonzero.toNat_lt
  have index := bit.isLt
  have parts := Nat.div_add_mod bit.toNat 32
  have small : bit.toNat % 32 < 32 := Nat.mod_lt _ (by decide)
  have large : bit.toNat / 32 < 2 := by omega
  rw [A64.Instr.encode_toNat, A64.Instr.layout] at sum
  have field : word.toNat / 2 ^ 5 % 2 ^ (13 + 1) = imm.toNat := by clear parts; omega
  have register := grabRd_setWidth (show word.toNat % 2 ^ 5 = rt.toNat by clear parts; omega)
  have bitIndex : (grabTbzTbnzBitIndex word).setWidth 64 = (bit.setWidth 64 : U64) := by
    have upper : word.toNat / 2 ^ 31 = bit.toNat / 32 := by clear parts; omega
    have lower : word.toNat / 2 ^ 19 % 2 ^ 5 = bit.toNat % 32 := by clear parts; omega
    rw [← BitVec.toNat_inj, BitVec.toNat_setWidth, grabTbzTbnzBitIndex_toNat, upper, lower,
      BitVec.toNat_setWidth]
    omega
  have bcond : cwBcond.test word = false := test_eq_false cwBcond_test_iff (by simp [decoded])
  rw [relocate, test_address (by simp [decoded]), test_branch (by simp [decoded]), bcond,
    test_compare (by simp [decoded]), register, bitIndex, grabTbzTbnzAddr,
    grabRelativeAddr_eq (by decide) field]
  cases nonzero with
  | false =>
    have other : cwTbnz.test word = false := test_eq_false cwTbnz_test_iff (by simp [decoded])
    rw [cwTbz_test_iff.mpr ⟨bit, imm, rt, decoded⟩, other]
    cases isLast <;> rfl
  | true =>
    have other : cwTbz.test word = false := test_eq_false cwTbz_test_iff (by simp [decoded])
    rw [cwTbnz_test_iff.mpr ⟨bit, imm, rt, decoded⟩, other]
    cases isLast <;> rfl

/-- A word that is none of the conditional branches. -/
theorem test_conditional (other : conditional (A64.Instr.decode word) = false) :
    cwBcond.test word = false ∧ (cwCbz.test word || cwCbnz.test word) = false ∧
      (cwTbz.test word || cwTbnz.test word) = false := by
  have bcond : cwBcond.test word = false := by
    apply test_eq_false cwBcond_test_iff
    rintro ⟨cond, imm, same⟩
    simp [same, conditional] at other
  have tbz : cwTbz.test word = false := by
    apply test_eq_false cwTbz_test_iff
    rintro ⟨bit, imm, rt, same⟩
    simp [same, conditional] at other
  have tbnz : cwTbnz.test word = false := by
    apply test_eq_false cwTbnz_test_iff
    rintro ⟨bit, imm, rt, same⟩
    simp [same, conditional] at other
  refine ⟨bcond, test_compare ?_, by rw [tbz, tbnz]; rfl⟩
  intro sf nonzero imm rt same
  simp [same, conditional] at other

/-- A load of a literal to a general register is refused. -/
theorem relocate_literal {opc : BitVec 2} {imm : BitVec 19} {rt : RegField}
    (small : opc.toNat < 2) (decoded : A64.Instr.decode word = .literal opc false imm rt) :
    relocate trampolineRx out skipReturn word origAddr isLast = none := by
  obtain ⟨bcond, compare, bit⟩ := test_conditional (show conditional (A64.Instr.decode word) = false
    by rw [decoded]; rfl)
  rw [relocate, test_address (by simp [decoded]), test_branch (by simp [decoded]), bcond, compare,
    bit, cwLdrLiteral_test_iff.mpr ⟨opc, imm, rt, small, decoded⟩]
  rfl

/-- A word that does not depend on its address is copied. -/
theorem relocate_movable (moves : movable (A64.Instr.decode word) = true) :
    relocate trampolineRx out skipReturn word origAddr isLast =
      (out.add word).map (·, skipReturn) := by
  have straight : conditional (A64.Instr.decode word) = false := by
    generalize A64.Instr.decode word = i at moves
    cases i <;> first | rfl | cases moves
  obtain ⟨bcond, compare, bit⟩ := test_conditional straight
  have literal : cwLdrLiteral.test word = false := by
    apply test_eq_false cwLdrLiteral_test_iff
    rintro ⟨opc, imm, rt, _, same⟩
    simp [same, movable] at moves
  have address : ∀ rd imm, A64.Instr.decode word ≠ .adr rd imm ∧
      A64.Instr.decode word ≠ .adrp rd imm := fun rd imm =>
    ⟨fun same => by simp [same, movable] at moves, fun same => by simp [same, movable] at moves⟩
  have branch : ∀ imm, A64.Instr.decode word ≠ .b imm ∧ A64.Instr.decode word ≠ .bl imm :=
    fun imm =>
      ⟨fun same => by simp [same, movable] at moves, fun same => by simp [same, movable] at moves⟩
  rw [relocate, test_address address, test_branch branch, bcond, compare, bit, literal]
  rfl

end

end Hakkun.Hook
