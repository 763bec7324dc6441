import Hakkun.Model.Hook.PcRelative

/-! # Encoding and decoding relative to the program counter

The displacement of an `ADR` or an `ADRP` is accepted with one bit more than its field has. The
other instructions divide it by 4 without its sign: a target before the instruction is refused, one
past the range is accepted with the bit of the sign set, and one within an instruction leads to its
start. The index of a bit is cut to 32 bits before it is checked. Where none of these happens the
decoders give back what the encoder was given, and the whole range is accepted.
-/

namespace Hakkun.Hook

/-! ## The range of a type -/

namespace IInstrType

/-- How far an instruction reaches in either direction, in bytes. -/
def reach : IInstrType → ℕ
  | .Adr | .Bcond | .Cbz | .Cbnz | .LdrLiteral => 2 ^ 20
  | .Adrp => 2 ^ 32
  | .Tbz | .Tbnz => 2 ^ 15

/-- The alignment of its targets. -/
def align : IInstrType → ℕ
  | .Adr => 1
  | .Adrp => 4096
  | _ => 4

/-- The distance of a target from the instruction or, for an `ADRP`, from its page. -/
def distance (type : IInstrType) (addr target : Ptr) : Ptr :=
  match type with
  | .Adrp => target - (addr &&& ~~~bits 12)
  | _ => target - addr

/-- The decoder of a type. -/
def grabAddr : IInstrType → Instr → Ptr → Ptr
  | .Adr | .Adrp => grabAdrAdrpAddr
  | .Tbz | .Tbnz => grabTbzTbnzAddr
  | _ => grabBcondCbzCbnzLdrRelativeAddr

/-- A target that the instruction has an encoding for. -/
def Reachable (type : IInstrType) (addr target : Ptr) : Prop :=
  target.toNat % type.align = 0 ∧ -(type.reach : ℤ) ≤ (type.distance addr target).toInt ∧
    (type.distance addr target).toInt < type.reach

end IInstrType

/-- The number of a register; that of `SP` is 31. -/
def registerNumber (rd : U64) : ℕ := if rd = IRegType.SP.setWidth 64 then 31 else rd.toNat % 32

/-- Registers, a condition and a bit that the instruction has. -/
def Legal (type : IInstrType) (operands : Operands) : Prop :=
  (operands.rd < IRegType.max.setWidth 64 ∧ operands.rn < IRegType.max.setWidth 64 ∧
    operands.rm < IRegType.max.setWidth 64) ∧
  match type with
  | .Adr | .Adrp => isX (operands.rd.setWidth 8) = true
  | .Bcond => operands.shiftImm.toNat < 16
  | .Tbz | .Tbnz => operands.shiftImm.toNat < 64
  | _ => True

/-- The condition, the bit and the register that are decoded are those given. -/
def Given (type : IInstrType) (operands : Operands) (instr : Instr) : Prop :=
  match type with
  | .Bcond => grabBcondCond instr = operands.shiftImm
  | .Tbz | .Tbnz => (grabRd instr).toNat = registerNumber operands.rd ∧
      (grabTbzTbnzBitIndex instr).toNat = operands.shiftImm.toNat
  | _ => (grabRd instr).toNat = registerNumber operands.rd

/-- What is assembled decodes to what was given, and every reachable target is assembled. -/
def Inverse (type : IInstrType) (operands : Operands) (addr : Ptr) : Prop :=
  (∀ instr, assemble type operands addr = some instr →
    type.grabAddr instr addr = operands.imm ∧ Given type operands instr) ∧
  (Legal type operands → type.Reachable addr operands.imm →
    (assemble type operands addr).isSome = true)

/-- The operands as they are checked: the index of a bit is cut to 32 bits. -/
def Operands.checked (operands : Operands) : IInstrType → Operands
  | .Tbz | .Tbnz =>
    { operands with shiftImm := (operands.shiftImm.setWidth 32).setWidth 64 }
  | _ => operands

/-- An accepted distance of an `ADR` or `ADRP` does not need the bit that its field lacks. -/
def Fits (type : IInstrType) (operands : Operands) (addr : Ptr) : Prop :=
  let distance := (type.distance addr operands.imm).toInt
  operands.imm.toNat % type.align = 0 → -(2 * type.reach : ℤ) ≤ distance →
    distance < 2 * type.reach → -(type.reach : ℤ) ≤ distance ∧ distance < type.reach

/-- A distance that is less than twice the reach is one within it, of whole instructions, and the
bit has not been cut; none before the instruction is. -/
def Forward (type : IInstrType) (operands : Operands) (addr : Ptr) : Prop :=
  let distance := (type.distance addr operands.imm).toInt
  if 0 ≤ distance then
    distance < 2 * type.reach →
      Legal type operands ∧ operands.imm.toNat % type.align = 0 ∧ distance < type.reach
  else ¬ (Legal type operands ∧ operands.imm.toNat % type.align = 0 ∧ -(type.reach : ℤ) ≤ distance)

/-- The inputs without loss, where the operands pass their checks. -/
def Exact (type : IInstrType) (operands : Operands) (addr : Ptr) : Prop :=
  Legal type (operands.checked type) →
    match type with
    | .Adr | .Adrp => Fits type operands addr
    | _ => Forward type operands addr

/-! ## The checks of the range -/

theorem canBeImm_neg_iff {width : ℕ} (value : U64) (narrow : width < 64) :
    canBeImm true width 1 value = true ↔
      -(2 ^ width : ℤ) ≤ value.toInt ∧ value.toInt < 2 ^ width := by
  have power : 2 ^ width ≤ 2 ^ 63 := Nat.pow_le_pow_right (by decide) (by omega)
  have cast : ((2 ^ width : ℕ) : ℤ) = 2 ^ width := by push_cast; rfl
  rw [canBeImm, Bool.true_and, Bool.or_eq_true, isRepresentable_one _ (by omega),
    isRepresentable_one _ (by omega), BitVec.toNat_not, BitVec.toInt_eq_toNat_cond, ← cast]
  have bound := value.isLt
  split_ifs <;> omega

theorem instrDiff_toNat {addr : Ptr} (aligned : addr.toNat % 4 = 0) (target : Ptr) :
    (instrDiff addr target).toNat = (target - addr).toNat / 4 := by
  have base : addr &&& ~~~bits 2 = addr := by
    rw [← BitVec.toNat_inj, and_not_bits_toNat _ (by decide)]
    omega
  rw [instrDiff, base, BitVec.toNat_udiv]
  rfl

/-- A distance that is divided without its sign passes the check when it is not negative. -/
theorem canBeImm_instrDiff_iff {width : ℕ} (narrow : width ≤ 32) {addr : Ptr}
    (aligned : addr.toNat % 4 = 0) (target : Ptr) :
    canBeImm true width 1 (instrDiff addr target) = true ↔
      (target - addr).toNat < 4 * 2 ^ width := by
  have power : 2 ^ width ≤ 2 ^ 32 := Nat.pow_le_pow_right (by decide) narrow
  have bound := (target - addr).isLt
  rw [canBeImm, Bool.true_and, Bool.or_eq_true, isRepresentable_one _ (by omega),
    isRepresentable_one _ (by omega), BitVec.toNat_not, instrDiff_toNat aligned]
  omega

/-! ## Fields of words -/

/-- The fields of a word that is built of a field at bit 5, a low field and a rest. -/
theorem fields_of_sum {word head field low width : ℕ} (sum : word = head + field * 2 ^ 5 + low)
    (clear : head % 2 ^ (5 + width) = 0) (fits : field < 2 ^ width) (small : low < 2 ^ 5) :
    word / 2 ^ 5 % 2 ^ width = field ∧ word % 2 ^ 5 = low ∧
      word / 2 ^ (5 + width) = head / 2 ^ (5 + width) := by
  obtain ⟨rest, rfl⟩ := Nat.dvd_of_mod_eq_zero clear
  have positive := Nat.two_pow_pos width
  have whole : word = (rest * 2 ^ width + field) * 2 ^ 5 + low := by
    rw [sum, Nat.pow_add]
    ring
  have upper : word / 2 ^ 5 = rest * 2 ^ width + field := by omega
  refine ⟨?_, by omega, ?_⟩
  · rw [upper, Nat.mul_add_mod_self_right, Nat.mod_eq_of_lt fits]
  · rw [Nat.mul_div_cancel_left _ (Nat.two_pow_pos _), Nat.pow_add, ← Nat.div_div_eq_div_mul, upper,
      Nat.mul_comm, Nat.mul_add_div positive, Nat.div_eq_of_lt fits, Nat.add_zero]

/-- The field of the distance. -/
theorem set_diff {head : InstrBuilder} {width : ℕ} (diff : U32) (positive : 0 < width)
    (bound : 5 + width ≤ 32) (clear : head.mValue.toNat % 2 ^ (5 + width) = 0) :
    (head.set (4 + width) 5 diff).mValue.toNat =
      head.mValue.toNat + diff.toNat % 2 ^ width * 2 ^ 5 := by
  have above : head.mValue.toNat / 2 ^ 5 % 2 ^ width = 0 := by
    rw [← Nat.mod_mul_right_div_self, ← Nat.pow_add, clear, Nat.zero_div]
  exact InstrBuilder.set_toNat width diff rfl (by omega) positive (by omega) above

/-- The bits below it stay clear. -/
theorem set_diff_mod {head : InstrBuilder} {width : ℕ} (diff : U32) (positive : 0 < width)
    (bound : 5 + width ≤ 32) (clear : head.mValue.toNat % 2 ^ (5 + width) = 0) :
    (head.set (4 + width) 5 diff).mValue.toNat % 2 ^ 5 = 0 := by
  have lowClear : head.mValue.toNat % 2 ^ 5 = 0 := by
    rw [← Nat.mod_mod_of_dvd _ (Nat.pow_dvd_pow 2 (Nat.le_add_right 5 width)), clear, Nat.zero_mod]
  rw [set_diff diff positive bound clear]
  omega

/-- The low field of an instruction. -/
theorem set_low {head : InstrBuilder} (low : U32) (clear : head.mValue.toNat % 2 ^ 5 = 0) :
    (head.set 4 0 low).mValue.toNat = head.mValue.toNat + low.toNat % 2 ^ 5 := by
  have set := InstrBuilder.set_toNat 5 low (show head.mValue.toNat = _ from rfl)
    (show 4 + 1 = 0 + 5 from rfl) (by decide) (by decide) (by omega)
  rw [set, Nat.pow_zero, Nat.mul_one]

/-- A field that holds a distance in words leads to the target when the distance is one of whole
words and does not reach the bit of the sign. -/
theorem grabRelativeAddr_eq_iff {instr : Instr} {pc target : Ptr} {k : ℕ} (narrow : k < 31)
    (field : instr.toNat / 2 ^ 5 % 2 ^ (k + 1) = (target - pc).toNat / 4)
    (near : (target - pc).toNat < 4 * 2 ^ (k + 1)) :
    grabRelativeAddr (k + 1) instr pc = target ↔
      (target - pc).toNat % 4 = 0 ∧ (target - pc).toNat < 4 * 2 ^ k := by
  have power : 2 ^ k ≤ 2 ^ 30 := Nat.pow_le_pow_right (by decide) (by omega)
  have grabbed := grab_toNat instr 5 (show k + 1 ≤ 32 by omega)
  rw [field] at grabbed
  have fits : (grab instr 5 (k + 1)).toNat < 2 ^ (k + 1) := by omega
  have offset := signExtend_toNat (show k < 32 by omega) fits
  have arrives : grabRelativeAddr (k + 1) instr pc = target ↔
      (signExtend (grab instr 5 (k + 1)) (k + 1)).signExtend 64 * BitVec.ofNat 64 cInstrSize =
        target - pc := by
    rw [grabRelativeAddr, BitVec.eq_sub_iff_add_eq, BitVec.add_comm]
  rw [arrives, ← BitVec.toNat_inj, BitVec.toNat_mul, BitVec.toNat_signExtend,
    BitVec.msb_eq_decide, BitVec.toNat_setWidth, offset, grabbed]
  simp only [decide_eq_true_eq, BitVec.toNat_ofNat, cInstrSize]
  have double : 2 ^ (k + 1) = 2 ^ k * 2 := Nat.pow_succ ..
  rw [double] at near ⊢
  generalize (target - pc).toNat = distance at *
  generalize 2 ^ k = half at *
  clear offset grabbed fits arrives field double
  split_ifs <;> omega

/-! ## The register, the condition and the bit -/

/-- The register as the encoder sees it. -/
def encodedRegister (rd : U64) : IRegType :=
  if (rd.setWidth 8 : IRegType) = IRegType.SP then IRegType.X31 else rd.setWidth 8

theorem encodedRegister_toNat {rd : U64} (small : rd < IRegType.max.setWidth 64) :
    (encodedRegister rd).toNat % 32 = registerNumber rd := by
  rw [BitVec.lt_def, show (IRegType.max.setWidth 64 : U64).toNat = 223 from rfl] at small
  have narrow : (rd.setWidth 8 : IRegType).toNat = rd.toNat := by
    rw [BitVec.toNat_setWidth]
    omega
  have same : (rd.setWidth 8 : IRegType) = IRegType.SP ↔ rd = IRegType.SP.setWidth 64 := by
    rw [← BitVec.toNat_inj, ← BitVec.toNat_inj, narrow]
    rfl
  rw [encodedRegister, registerNumber]
  simp only [same]
  split
  · rfl
  · rw [narrow]

theorem grabRd_toNat (instr : Instr) : (grabRd instr).toNat = instr.toNat % 2 ^ 5 := by
  rw [grabRd, BitVec.toNat_setWidth, grab_toNat _ _ (by decide)]
  omega

theorem grabTbzTbnzBitIndex_toNat (instr : Instr) :
    (grabTbzTbnzBitIndex instr).toNat =
      instr.toNat / 2 ^ 31 * 2 ^ 5 + instr.toNat / 2 ^ 19 % 2 ^ 5 := by
  have bound := instr.isLt
  have lower : ((grab instr 19 5).setWidth 8 : BitVec 8).toNat = instr.toNat / 2 ^ 19 % 2 ^ 5 := by
    rw [BitVec.toNat_setWidth, grab_toNat _ _ (by decide)]
    omega
  have upper : ((instr >>> 31 &&& 1).setWidth 8 <<< 5 : BitVec 8).toNat =
      instr.toNat / 2 ^ 31 * 2 ^ 5 := by
    rw [BitVec.toNat_shiftLeft, BitVec.toNat_setWidth, BitVec.toNat_and, Nat.shiftLeft_eq,
      show (1 : U32).toNat = 2 ^ 1 - 1 from rfl, Nat.and_two_pow_sub_one_eq_mod,
      BitVec.toNat_ushiftRight, Nat.shiftRight_eq_div_pow]
    omega
  have clear : instr.toNat / 2 ^ 31 * 2 ^ 5 / 2 ^ 0 % 2 ^ 5 = 0 := by omega
  have sum := Math.or_eq_add_of_clear
    (Nat.mod_lt (instr.toNat / 2 ^ 19) (Nat.two_pow_pos 5)) clear
  rw [grabTbzTbnzBitIndex, BitVec.toNat_or, lower, upper]
  simpa only [Nat.pow_zero, Nat.mul_one] using sum

/-! ## Distances in words -/

/-- What comes of a distance of which the words fill a field: it is refused, or it is in the field
of a word of which the rest is as it should be. -/
structure Encodes (result : Option Instr) (width distance : ℕ) (rest : Instr → Prop) : Prop where
  far : ¬ distance < 4 * 2 ^ width → result = none
  near : distance < 4 * 2 ^ width → ∃ instr, result = some instr ∧
    instr.toNat / 2 ^ 5 % 2 ^ width = distance / 4 ∧ rest instr

section

variable {addr target : Ptr} {rd : IRegType}

/-- The word of a distance that is accepted. -/
theorem fields_of_near {head : InstrBuilder} {width : ℕ} (low : U32) (positive : 0 < width)
    (bound : width ≤ 27) (aligned : addr.toNat % 4 = 0)
    (near : (target - addr).toNat < 4 * 2 ^ width) {diff : U32}
    (cut : diff.toNat % 2 ^ width = (instrDiff addr target).toNat % 2 ^ width)
    (clear : head.mValue.toNat % 2 ^ (5 + width) = 0) :
    let instr := ((head.set (4 + width) 5 diff).set 4 0 low).mValue
    instr.toNat / 2 ^ 5 % 2 ^ width = (target - addr).toNat / 4 ∧
      instr.toNat % 2 ^ 5 = low.toNat % 2 ^ 5 ∧
      instr.toNat / 2 ^ (5 + width) = head.mValue.toNat / 2 ^ (5 + width) := by
  have whole : diff.toNat % 2 ^ width = (target - addr).toNat / 4 := by
    rw [cut, instrDiff_toNat aligned, Nat.mod_eq_of_lt (by omega)]
  have sum := set_low low (set_diff_mod diff positive (by omega) clear)
  rw [set_diff diff positive (by omega) clear] at sum
  have fields := fields_of_sum sum clear (Nat.mod_lt _ (Nat.two_pow_pos _))
    (Nat.mod_lt _ (by decide))
  rwa [whole] at fields

theorem toNat_setWidth_mod {width narrow : ℕ} (value : U64) (le : width ≤ narrow) :
    (value.setWidth narrow).toNat % 2 ^ width = value.toNat % 2 ^ width := by
  rw [BitVec.toNat_setWidth, Nat.mod_mod_of_dvd _ (Nat.pow_dvd_pow 2 le)]

theorem encodes_assembleCbz (isCbz : Bool) (aligned : addr.toNat % 4 = 0) :
    Encodes (assembleCbz isCbz rd addr target) 19 (target - addr).toNat
      fun instr => instr.toNat % 2 ^ 5 = rd.toNat % 32 := by
  have check := canBeImm_instrDiff_iff (show 19 ≤ 32 by decide) aligned target
  constructor
  · intro far
    rw [assembleCbz, canBeImm19Neg, if_neg (mt check.mp far)]
  · intro near
    have clear : (((InstrBuilder.mk 0).set 31 31 (if isX rd then 1 else 0)).set 30 24
        (if isCbz then cOpCbz else cOpCbnz)).mValue.toNat % 2 ^ (5 + 19) = 0 := by
      cases isX rd <;> cases isCbz <;> rfl
    obtain ⟨field, low, -⟩ := fields_of_near (rd.setWidth 32) (by decide) (by decide) aligned near
      (toNat_setWidth_mod _ (show 19 ≤ 32 by decide)) clear
    rw [assembleCbz, canBeImm19Neg, if_pos (check.mpr near)]
    refine ⟨_, rfl, field, low.trans ?_⟩
    rw [BitVec.toNat_setWidth]
    omega

theorem encodes_assembleLdrLiteral (aligned : addr.toNat % 4 = 0) :
    Encodes (assembleLdrLiteral rd addr target) 19 (target - addr).toNat
      fun instr => instr.toNat % 2 ^ 5 = rd.toNat % 32 := by
  have check := canBeImm_instrDiff_iff (show 19 ≤ 32 by decide) aligned target
  constructor
  · intro far
    rw [assembleLdrLiteral, canBeImm19Neg, if_neg (mt check.mp far)]
  · intro near
    have clear : (((InstrBuilder.mk 0).set 31 30 (if isX rd then 1 else 0)).set 30 24
        cOpLdrLiteral).mValue.toNat % 2 ^ (5 + 19) = 0 := by
      cases isX rd <;> rfl
    obtain ⟨field, low, -⟩ := fields_of_near (rd.setWidth 32) (by decide) (by decide) aligned near
      (toNat_setWidth_mod _ (show 19 ≤ 32 by decide)) clear
    rw [assembleLdrLiteral, canBeImm19Neg, if_pos (check.mpr near)]
    refine ⟨_, rfl, field, low.trans ?_⟩
    rw [BitVec.toNat_setWidth]
    omega

/-- Bit 4 stays clear, so a condition is what a field of 5 bits would hold. -/
theorem set_cond {head : InstrBuilder} {condV : U64} (small : condV.toNat < 16)
    (clear : head.mValue.toNat % 2 ^ 5 = 0) :
    ((head.set 4 4 0).set 3 0 (condV.setWidth 32)).mValue =
      (head.set 4 0 (condV.setWidth 32)).mValue := by
  have cond : (condV.setWidth 32 : U32).toNat = condV.toNat := by
    rw [BitVec.toNat_setWidth]
    omega
  have first := InstrBuilder.set_toNat 1 0 (show head.mValue.toNat = _ from rfl)
    (show 4 + 1 = 4 + 1 from rfl) (by decide) (by decide) (by omega)
  have zero : (0 : U32).toNat % 2 ^ 1 * 2 ^ 4 = 0 := rfl
  rw [zero, Nat.add_zero] at first
  have second := InstrBuilder.set_toNat 4 (condV.setWidth 32) first
    (show 3 + 1 = 0 + 4 from rfl) (by decide) (by decide) (by omega)
  rw [← BitVec.toNat_inj, second, set_low _ clear, cond]
  omega

theorem encodes_assembleBcond {condV : U64} (small : condV.toNat < 16)
    (aligned : addr.toNat % 4 = 0) :
    Encodes (assembleBcond addr target condV) 19 (target - addr).toNat
      fun instr => instr.toNat % 2 ^ 5 = condV.toNat := by
  have check := canBeImm_instrDiff_iff (show 19 ≤ 32 by decide) aligned target
  constructor
  · intro far
    rw [assembleBcond, canBeImm19Neg, if_neg (mt check.mp far)]
  · intro near
    have inRange : condV ≤ bits 4 := by
      rw [BitVec.le_def, bits_toNat (by decide)]
      omega
    have cond : (condV.setWidth 32 : U32).toNat = condV.toNat := by
      rw [BitVec.toNat_setWidth]
      omega
    have clear : ((InstrBuilder.mk 0).set 31 24 cOpBcond).mValue.toNat % 2 ^ (5 + 19) = 0 := rfl
    obtain ⟨field, low, -⟩ := fields_of_near (condV.setWidth 32) (by decide) (by decide) aligned
      near (toNat_setWidth_mod _ (show 19 ≤ 32 by decide)) clear
    rw [assembleBcond, canBeImm19Neg, if_pos (check.mpr near), if_pos inRange]
    have same := set_cond small (set_diff_mod ((instrDiff addr target).setWidth 32)
      (show 0 < 19 by decide) (by decide) clear)
    rw [← same] at field low
    refine ⟨_, rfl, field, low.trans ?_⟩
    rw [cond]
    omega

/-- The bits above the distance of a `TBZ`. -/
theorem index_head (isTbz : Bool) {shiftV : U32} (small : shiftV.toNat < 64) :
    let head := (((InstrBuilder.mk 0).set 31 31 (if shiftV &&& 1#32 <<< 5 ≠ 0 then 1 else 0)).set
      30 24 (if isTbz then cOpTbz else cOpTbnz)).set 23 19 (shiftV &&& (bits 5).setWidth 32)
    head.mValue.toNat / 2 ^ 31 * 2 ^ 5 + head.mValue.toNat / 2 ^ 19 % 2 ^ 5 = shiftV.toNat ∧
      head.mValue.toNat % 2 ^ (5 + 14) = 0 := by
  have kind : ((if isTbz then cOpTbz else cOpTbnz : U32)).toNat < 2 ^ 7 := by
    cases isTbz <;> decide
  have sixth : (if shiftV &&& 1#32 <<< 5 ≠ 0 then 1 else 0 : U32).toNat = shiftV.toNat / 32 := by
    have masked : (shiftV &&& 1#32 <<< 5).toNat = shiftV.toNat / 2 ^ 5 % 2 ^ 1 * 2 ^ 5 := by
      rw [BitVec.toNat_and, show (1#32 <<< 5).toNat = (2 ^ 1 - 1) * 2 ^ 5 from rfl,
        Math.and_shifted_mask]
    have set : shiftV &&& 1#32 <<< 5 ≠ 0 ↔ shiftV.toNat / 32 = 1 := by
      rw [ne_eq, ← BitVec.toNat_inj, masked, show (0 : U32).toNat = 0 from rfl]
      omega
    split_ifs with sixth
    · exact (set.mp sixth).symm
    · exact (show shiftV.toNat / 32 = 0 by have := mt set.mpr sixth; omega).symm
  have lower : (shiftV &&& (bits 5).setWidth 32).toNat = shiftV.toNat % 2 ^ 5 := by
    rw [BitVec.toNat_and, show ((bits 5).setWidth 32 : U32).toNat = 2 ^ 5 - 1 from rfl,
      Nat.and_two_pow_sub_one_eq_mod]
  have first := InstrBuilder.set_toNat 1 (if shiftV &&& 1#32 <<< 5 ≠ 0 then 1 else 0)
    (show (InstrBuilder.mk 0).mValue.toNat = 0 from rfl) (show 31 + 1 = 31 + 1 from rfl) (by decide)
    (by decide) (by decide)
  rw [sixth] at first
  have second := InstrBuilder.set_toNat 7 (if isTbz then cOpTbz else cOpTbnz) first
    (show 30 + 1 = 24 + 7 from rfl) (by decide) (by decide) (by omega)
  have third := InstrBuilder.set_toNat 5 (shiftV &&& (bits 5).setWidth 32) second
    (show 23 + 1 = 19 + 5 from rfl) (by decide) (by decide) (by omega)
  rw [lower] at third
  intro head
  change head.mValue.toNat = _ at third
  rw [third]
  omega

theorem encodes_assembleTbz (isTbz : Bool) {shiftImm : U64} (small : shiftImm.toNat % 2 ^ 32 < 64)
    (aligned : addr.toNat % 4 = 0) :
    Encodes (assembleTbz isTbz rd addr target shiftImm) 14 (target - addr).toNat
      fun instr => instr.toNat % 2 ^ 5 = rd.toNat % 32 ∧
        instr.toNat / 2 ^ 31 * 2 ^ 5 + instr.toNat / 2 ^ 19 % 2 ^ 5 = shiftImm.toNat % 2 ^ 32 := by
  have check := canBeImm_instrDiff_iff (show 14 ≤ 32 by decide) aligned target
  constructor
  · intro far
    rw [assembleTbz, canBeImm14Neg, if_neg (mt check.mp far)]
  · intro near
    have shiftV : (shiftImm.setWidth 32 : U32).toNat = shiftImm.toNat % 2 ^ 32 :=
      BitVec.toNat_setWidth _ _
    have index (word rest : ℕ) (same : word / 2 ^ 19 = rest / 2 ^ 19) :
        word / 2 ^ 31 * 2 ^ 5 + word / 2 ^ 19 % 2 ^ 5 =
          rest / 2 ^ 31 * 2 ^ 5 + rest / 2 ^ 19 % 2 ^ 5 := by omega
    have inRange : (shiftImm.setWidth 32 : U32) ≤ 63 := by
      rw [BitVec.le_def, shiftV, show (63 : U32).toNat = 63 from rfl]
      omega
    have cut : (((instrDiff addr target).setWidth 16).setWidth 32 : U32).toNat % 2 ^ 14 =
        (instrDiff addr target).toNat % 2 ^ 14 := by
      rw [BitVec.toNat_setWidth, BitVec.toNat_setWidth]
      omega
    obtain ⟨head, clear⟩ := index_head isTbz (shiftV ▸ small)
    obtain ⟨field, low, above⟩ := fields_of_near (rd.setWidth 32) (by decide) (by decide) aligned
      near cut clear
    rw [assembleTbz, canBeImm14Neg, if_pos (check.mpr near)]
    refine ⟨_, if_pos inRange, field, low.trans ?_, ?_⟩
    · rw [BitVec.toNat_setWidth]
      omega
    · exact (index _ _ above).trans (head.trans shiftV)

end

/-! ## The instructions whose distance is in words -/

section

variable {type : IInstrType} {operands : Operands} {addr : Ptr}

theorem assemble_of_registers
    (registers : operands.rd < IRegType.max.setWidth 64 ∧ operands.rn < IRegType.max.setWidth 64 ∧
      operands.rm < IRegType.max.setWidth 64) :
    assemble type operands addr =
      let rd := encodedRegister operands.rd
      match type with
      | .Adr => assembleAdr false rd addr operands.imm
      | .Adrp => assembleAdr true rd addr operands.imm
      | .Bcond => assembleBcond addr operands.imm operands.shiftImm
      | .Cbz => assembleCbz true rd addr operands.imm
      | .Cbnz => assembleCbz false rd addr operands.imm
      | .Tbz => assembleTbz true rd addr operands.imm operands.shiftImm
      | .Tbnz => assembleTbz false rd addr operands.imm operands.shiftImm
      | .LdrLiteral => assembleLdrLiteral rd addr operands.imm := by
  rw [assemble, if_pos registers]
  rfl

/-- The law for an instruction whose encoder fills a field with the words of the distance. -/
theorem inverse_iff_of_encodes {k : ℕ} (narrow : k < 31) (aligned : addr.toNat % 4 = 0)
    (words : type.align = 4) (reach : type.reach = 4 * 2 ^ k)
    (distance : type.distance addr operands.imm = operands.imm - addr)
    (decoder : type.grabAddr = grabRelativeAddr (k + 1))
    (legal : Legal type operands → Legal type (operands.checked type))
    (refused : ¬ Legal type (operands.checked type) → assemble type operands addr = none)
    (encodes : Legal type (operands.checked type) →
      Encodes (assemble type operands addr) (k + 1) (operands.imm - addr).toNat
        fun instr => Given type operands instr ↔ Legal type operands) :
    Inverse type operands addr ↔
      (Legal type (operands.checked type) → Forward type operands addr) := by
  have power : 2 ^ k ≤ 2 ^ 30 := Nat.pow_le_pow_right (by decide) (by omega)
  have double : 2 ^ (k + 1) = 2 ^ k * 2 := Nat.pow_succ ..
  have bound := (operands.imm - addr).isLt
  have signed := (operands.imm - addr).toInt_eq_toNat_cond
  have whole : operands.imm.toNat % 4 = 0 ↔ (operands.imm - addr).toNat % 4 = 0 := by
    rw [BitVec.toNat_sub]
    omega
  have positive : 0 ≤ (operands.imm - addr).toInt ↔ (operands.imm - addr).toNat < 2 ^ 63 := by
    split at signed <;> omega
  simp only [Inverse, Forward, IInstrType.Reachable, words, reach, distance, decoder]
  by_cases checks : Legal type (operands.checked type)
  · obtain ⟨far, near⟩ := encodes checks
    rcases Nat.lt_or_ge (operands.imm - addr).toNat (4 * 2 ^ (k + 1)) with inside | outside
    · obtain ⟨instr, assembled, field, given⟩ := near inside
      have arrives := grabRelativeAddr_eq_iff narrow field inside
      rw [if_pos (positive.mpr (by omega))]
      constructor
      · rintro ⟨recovers, -⟩ _ _
        obtain ⟨back, same⟩ := recovers instr assembled
        obtain ⟨multiple, below⟩ := arrives.mp back
        exact ⟨given.mp same, whole.mpr multiple, by split at signed <;> omega⟩
      · intro forward
        obtain ⟨fine, multiple, below⟩ := forward checks (by split at signed <;> omega)
        refine ⟨?_, fun _ _ => Option.isSome_of_eq_some assembled⟩
        intro other same
        obtain rfl := Option.some.inj (assembled.symm.trans same)
        exact ⟨arrives.mpr ⟨whole.mp multiple, by split at signed <;> omega⟩, given.mpr fine⟩
    · rw [far (by omega)]
      constructor
      · rintro ⟨-, accepts⟩ _
        split_ifs with ahead
        · intro below
          exfalso
          split at signed <;> omega
        · rintro ⟨fine, multiple, back⟩
          exact absurd (accepts fine ⟨multiple, back, by omega⟩) Bool.false_ne_true
      · intro forward
        refine ⟨nofun, ?_⟩
        rintro fine ⟨multiple, back, below⟩
        have behind := forward checks
        rw [if_neg (by rw [positive]; split at signed <;> omega)] at behind
        exact absurd ⟨fine, multiple, back⟩ behind
  · rw [refused checks]
    exact ⟨fun _ passes => absurd passes checks,
      fun _ => ⟨nofun, fun fine _ => absurd (legal fine) checks⟩⟩

/-- The law for an encoder that takes twice the range of its instruction. -/
theorem inverse_iff_of_signed (refused : ¬ Legal type operands → assemble type operands addr = none)
    (skewed : Legal type operands → operands.imm.toNat % type.align ≠ 0 →
      assemble type operands addr = none)
    (far : Legal type operands → operands.imm.toNat % type.align = 0 →
      ¬ (-(2 * type.reach : ℤ) ≤ (type.distance addr operands.imm).toInt ∧
        (type.distance addr operands.imm).toInt < 2 * type.reach) →
      assemble type operands addr = none)
    (near : Legal type operands → operands.imm.toNat % type.align = 0 →
      -(2 * type.reach : ℤ) ≤ (type.distance addr operands.imm).toInt →
      (type.distance addr operands.imm).toInt < 2 * type.reach →
      ∃ instr, assemble type operands addr = some instr ∧ Given type operands instr ∧
        (type.grabAddr instr addr = operands.imm ↔
          -(type.reach : ℤ) ≤ (type.distance addr operands.imm).toInt ∧
            (type.distance addr operands.imm).toInt < type.reach)) :
    Inverse type operands addr ↔ (Legal type operands → Fits type operands addr) := by
  constructor
  · rintro ⟨recovers, -⟩ legal aligned back ahead
    obtain ⟨instr, assembled, -, arrives⟩ := near legal aligned back ahead
    exact arrives.mp (recovers instr assembled).1
  · intro fits
    constructor
    · intro other same
      by_cases legal : Legal type operands
      · by_cases aligned : operands.imm.toNat % type.align = 0
        · by_cases inside : -(2 * type.reach : ℤ) ≤ (type.distance addr operands.imm).toInt ∧
            (type.distance addr operands.imm).toInt < 2 * type.reach
          · obtain ⟨instr, assembled, given, arrives⟩ := near legal aligned inside.1 inside.2
            obtain rfl := Option.some.inj (assembled.symm.trans same)
            exact ⟨arrives.mpr (fits legal aligned inside.1 inside.2), given⟩
          · exact absurd ((far legal aligned inside).symm.trans same) (Option.some_ne_none _).symm
        · exact absurd ((skewed legal aligned).symm.trans same) (Option.some_ne_none _).symm
      · exact absurd ((refused legal).symm.trans same) (Option.some_ne_none _).symm
    · rintro legal ⟨aligned, back, ahead⟩
      obtain ⟨instr, assembled, -⟩ := near legal aligned (by omega) (by omega)
      exact Option.isSome_of_eq_some assembled

end

/-! ## The fields of an `ADR` -/

/-- The word that is built for an `ADR` or an `ADRP`. -/
theorem adr_fields (isAdrp : Bool) (diffImm : U64) (rd : IRegType) :
    let instr := ((((InstrBuilder.mk 0).set 31 24 (if isAdrp then cOpAdrp else cOpAdr)).set 30 29
      ((diffImm &&& bits 2).setWidth 32)).set 23 5 ((diffImm >>> 2 &&& bits 24).setWidth 32)).set
        4 0 ((reg rd).setWidth 32)
    instr.mValue.toNat / 2 ^ 24 % 2 ^ 5 = 0b10000 ∧
      instr.mValue.toNat / 2 ^ 31 % 2 = isAdrp.toNat ∧
      instr.mValue.toNat / 2 ^ 5 % 2 ^ 19 * 4 + instr.mValue.toNat / 2 ^ 29 % 2 ^ 2 =
        diffImm.toNat % 2 ^ 21 ∧
      instr.mValue.toNat % 2 ^ 5 = rd.toNat % 2 ^ 5 := by
  have op : ((if isAdrp then cOpAdrp else cOpAdr : U32)).toNat =
      isAdrp.toNat * 2 ^ 7 + 2 ^ 4 := by
    cases isAdrp <;> rfl
  have opBound := isAdrp.toNat_lt
  have immlo : ((diffImm &&& bits 2).setWidth 32 : U32).toNat = diffImm.toNat % 2 ^ 2 := by
    rw [BitVec.toNat_setWidth, and_bits_toNat _ (by decide)]
    omega
  have immhi : ((diffImm >>> 2 &&& bits 24).setWidth 32 : U32).toNat =
      diffImm.toNat / 2 ^ 2 % 2 ^ 24 := by
    rw [BitVec.toNat_setWidth, and_bits_toNat _ (by decide), BitVec.toNat_ushiftRight,
      Nat.shiftRight_eq_div_pow]
    omega
  have register : ((reg rd).setWidth 32 : U32).toNat = rd.toNat % 2 ^ 5 := by
    rw [BitVec.toNat_setWidth, reg, BitVec.toNat_and,
      show (0b11111 : BitVec 8).toNat = 2 ^ 5 - 1 from rfl, Nat.and_two_pow_sub_one_eq_mod]
    omega
  have first := InstrBuilder.set_toNat 8 (if isAdrp then cOpAdrp else cOpAdr)
    (show (InstrBuilder.mk 0).mValue.toNat = 0 from rfl) (show 31 + 1 = 24 + 8 from rfl) (by decide)
    (by decide) (by decide)
  rw [op] at first
  have head := InstrBuilder.set_toNat 2 ((diffImm &&& bits 2).setWidth 32) first
    (show 30 + 1 = 29 + 2 from rfl) (by decide) (by decide) (by omega)
  rw [immlo] at head
  have clear : (((InstrBuilder.mk 0).set 31 24 (if isAdrp then cOpAdrp else cOpAdr)).set 30 29
      ((diffImm &&& bits 2).setWidth 32)).mValue.toNat % 2 ^ (5 + 19) = 0 := by
    rw [head]
    omega
  have sum := set_low ((reg rd).setWidth 32) (set_diff_mod
    ((diffImm >>> 2 &&& bits 24).setWidth 32) (show 0 < 19 by decide) (by decide) clear)
  rw [set_diff _ (by decide) (by decide) clear, head, immhi, register] at sum
  have middle : diffImm.toNat / 2 ^ 2 % 2 ^ 24 % 2 ^ 19 = diffImm.toNat % 2 ^ 21 / 2 ^ 2 := by
    rw [Nat.mod_mod_of_dvd _ (Nat.pow_dvd_pow 2 (by decide)), ← Nat.mod_mul_right_div_self]
    rfl
  have last : diffImm.toNat % 2 ^ 2 % 2 ^ 2 = diffImm.toNat % 2 ^ 21 % 2 ^ 2 := by
    rw [Nat.mod_mod, Nat.mod_mod_of_dvd _ (Nat.pow_dvd_pow 2 (by decide))]
  rw [head] at clear
  obtain ⟨field, low, above⟩ := fields_of_sum sum clear (Nat.mod_lt _ (by decide))
    (Nat.mod_lt _ (by decide))
  rw [middle] at field
  rw [Nat.mod_mod] at low
  -- What is above the immediate: the page bit, two bits of it and the kind.
  have upper : (0 + (isAdrp.toNat * 2 ^ 7 + 2 ^ 4) % 2 ^ 8 * 2 ^ 24 +
      diffImm.toNat % 2 ^ 2 % 2 ^ 2 * 2 ^ 29) / 2 ^ (5 + 19) =
        isAdrp.toNat * 2 ^ 7 + 2 ^ 4 + diffImm.toNat % 2 ^ 21 % 2 ^ 2 * 2 ^ 5 := by
    rw [last]
    omega
  rw [upper] at above
  intro instr
  change instr.mValue.toNat / _ = _ at above
  change instr.mValue.toNat / _ % _ = _ at field
  clear sum clear head first op immlo immhi register middle last upper
  generalize instr.mValue.toNat = word at *
  generalize diffImm.toNat % 2 ^ 21 = imm at *
  generalize isAdrp.toNat = page at *
  have kind : word / 2 ^ 24 = word / 2 ^ (5 + 19) := rfl
  have pages : word / 2 ^ 31 = word / 2 ^ (5 + 19) / 2 ^ 7 := by omega
  have part : word / 2 ^ 29 = word / 2 ^ (5 + 19) / 2 ^ 5 := by omega
  rw [kind, pages, part, above, field]
  refine ⟨by omega, by omega, by omega, low⟩

/-- The immediate is what a field of 21 bits keeps. -/
theorem grabAdrAddend_eq {instr : Instr} {value : U64}
    (field : instr.toNat / 2 ^ 5 % 2 ^ 19 * 4 + instr.toNat / 2 ^ 29 % 2 ^ 2 =
      value.toNat % 2 ^ 21) :
    grabAdrAddend instr = (value.setWidth 21).signExtend 64 := by
  rw [← BitVec.toNat_inj, grabAdrAddend_toNat, field, BitVec.toNat_signExtend,
    BitVec.msb_eq_decide, BitVec.toNat_setWidth, BitVec.toNat_setWidth]
  simp only [decide_eq_true_eq]
  split_ifs <;> omega

/-- The pages of a distance. -/
theorem toInt_sshiftRight_page (value : U64) :
    (value.sshiftRight 12).toInt = value.toInt / 4096 := by
  rw [BitVec.toInt_sshiftRight, Int.shiftRight_eq_div_pow]
  rfl

section

variable {instr : Instr} {addr target : Ptr}
  (kind : instr.toNat / 2 ^ 24 % 2 ^ 5 = 0b10000)

include kind

theorem grabAdrAdrpAddr_eq_iff_of_adr (bytes : instr.toNat / 2 ^ 31 % 2 = 0)
    (field : instr.toNat / 2 ^ 5 % 2 ^ 19 * 4 + instr.toNat / 2 ^ 29 % 2 ^ 2 =
      (target - addr).toNat % 2 ^ 21) :
    grabAdrAdrpAddr instr addr = target ↔
      -(2 ^ 20 : ℤ) ≤ (target - addr).toInt ∧ (target - addr).toInt < 2 ^ 20 := by
  rw [grabAdrAdrpAddr_of_adr kind bytes, grabAdrAddend_eq field,
    ← Math.signExtend_setWidth_eq_iff (show 20 < 64 by decide), BitVec.eq_sub_iff_add_eq,
    BitVec.add_comm]

theorem grabAdrAdrpAddr_eq_iff_of_adrp (pages : instr.toNat / 2 ^ 31 % 2 = 1)
    (aligned : target.toNat % 4096 = 0)
    (field : instr.toNat / 2 ^ 5 % 2 ^ 19 * 4 + instr.toNat / 2 ^ 29 % 2 ^ 2 =
      ((target - (addr &&& ~~~bits 12)).sshiftRight 12).toNat % 2 ^ 21)
    (back : -(2 ^ 33 : ℤ) ≤ (target - (addr &&& ~~~bits 12)).toInt)
    (ahead : (target - (addr &&& ~~~bits 12)).toInt < 2 ^ 33) :
    grabAdrAdrpAddr instr addr = target ↔
      -(2 ^ 32 : ℤ) ≤ (target - (addr &&& ~~~bits 12)).toInt ∧
        (target - (addr &&& ~~~bits 12)).toInt < 2 ^ 32 := by
  have arrives : grabAdrAdrpAddr instr addr = target ↔
      grabAdrpAddend instr = target - (addr &&& ~~~bits 12) := by
    rw [grabAdrAdrpAddr_of_adrp kind pages, BitVec.eq_sub_iff_add_eq, BitVec.add_comm]
  have page := and_not_bits_toNat addr (show 12 ≤ 64 by decide)
  have whole : (target - (addr &&& ~~~bits 12)).toNat % 4096 = 0 := by
    rw [BitVec.toNat_sub, page]
    omega
  have shifted := toInt_sshiftRight_page (target - (addr &&& ~~~bits 12))
  rw [arrives, ← BitVec.toNat_inj, grabAdrpAddend, BitVec.toNat_mul, grabAdrAddend_toNat, field,
    show cPageSize.toNat = 4096 from rfl]
  have signed := (target - (addr &&& ~~~bits 12)).toInt_eq_toNat_cond
  have shiftedSigned := ((target - (addr &&& ~~~bits 12)).sshiftRight 12).toInt_eq_toNat_cond
  generalize (target - (addr &&& ~~~bits 12)).sshiftRight 12 = diffImm at *
  generalize target - (addr &&& ~~~bits 12) = distance at *
  clear arrives field kind pages
  have := distance.isLt
  have := diffImm.isLt
  split at signed <;> split at shiftedSigned <;> split_ifs <;> omega

end

/-! ## The law -/

section

variable {operands : Operands} {addr : Ptr}

theorem Encodes.imp {result : Option Instr} {width distance : ℕ} {rest other : Instr → Prop}
    (encodes : Encodes result width distance rest) (weaker : ∀ instr, rest instr → other instr) :
    Encodes result width distance other :=
  ⟨encodes.far, fun near =>
    have ⟨instr, assembled, field, holds⟩ := encodes.near near
    ⟨instr, assembled, field, weaker instr holds⟩⟩

theorem grabRd_of_low {instr : Instr} (small : operands.rd < IRegType.max.setWidth 64)
    (low : instr.toNat % 2 ^ 5 = (encodedRegister operands.rd).toNat % 32) :
    (grabRd instr).toNat = registerNumber operands.rd := by
  rw [grabRd_toNat, low, encodedRegister_toNat small]

/-- An instruction with a register and a distance in words of which it keeps 19 bits. -/
theorem inverse_iff_of_register {type : IInstrType} (aligned : addr.toNat % 4 = 0)
    (kind : type = .Cbz ∨ type = .Cbnz ∨ type = .LdrLiteral) :
    Inverse type operands addr ↔ Exact type operands addr := by
  have encodes (legal : Legal type operands) :
      Encodes (assemble type operands addr) 19 (operands.imm - addr).toNat
        fun instr => Given type operands instr ↔ Legal type operands := by
    rw [assemble_of_registers legal.1]
    rcases kind with rfl | rfl | rfl
    · exact (encodes_assembleCbz true aligned).imp fun instr low =>
        iff_of_true (grabRd_of_low legal.1.1 low) legal
    · exact (encodes_assembleCbz false aligned).imp fun instr low =>
        iff_of_true (grabRd_of_low legal.1.1 low) legal
    · exact (encodes_assembleLdrLiteral aligned).imp fun instr low =>
        iff_of_true (grabRd_of_low legal.1.1 low) legal
  have refused (illegal : ¬ Legal type operands) : assemble type operands addr = none := by
    rw [assemble, if_neg]
    rcases kind with rfl | rfl | rfl <;> exact fun registers => illegal ⟨registers, trivial⟩
  rcases kind with rfl | rfl | rfl <;>
    exact inverse_iff_of_encodes (show 18 < 31 by decide) aligned rfl rfl rfl rfl id refused encodes

theorem inverse_iff_of_bcond (aligned : addr.toNat % 4 = 0) :
    Inverse .Bcond operands addr ↔ Exact .Bcond operands addr := by
  have refused (illegal : ¬ Legal .Bcond operands) : assemble .Bcond operands addr = none := by
    rw [assemble]
    split_ifs with registers
    · have large : ¬ operands.shiftImm ≤ bits 4 := by
        rw [BitVec.le_def, bits_toNat (by decide)]
        intro small
        exact illegal ⟨registers, show operands.shiftImm.toNat < 16 by omega⟩
      dsimp only [assembleBcond]
      rw [if_neg large, ite_self]
    · rfl
  refine inverse_iff_of_encodes (show 18 < 31 by decide) aligned rfl rfl rfl rfl id refused ?_
  intro legal
  change Legal .Bcond operands at legal
  have small : operands.shiftImm.toNat < 16 := legal.2
  rw [assemble_of_registers legal.1]
  refine (encodes_assembleBcond small aligned).imp fun instr low => iff_of_true ?_ legal
  change grabBcondCond instr = operands.shiftImm
  rw [← BitVec.toNat_inj, grabBcondCond, BitVec.toNat_setWidth, grab_toNat _ _ (by decide)]
  omega

theorem inverse_iff_of_tbz {type : IInstrType} (aligned : addr.toNat % 4 = 0)
    (kind : type = .Tbz ∨ type = .Tbnz) :
    Inverse type operands addr ↔ Exact type operands addr := by
  have cut : ((operands.shiftImm.setWidth 32).setWidth 64 : U64).toNat =
      operands.shiftImm.toNat % 2 ^ 32 := by
    rw [BitVec.toNat_setWidth, BitVec.toNat_setWidth]
    omega
  have checks : Legal type (operands.checked type) ↔
      (operands.rd < IRegType.max.setWidth 64 ∧ operands.rn < IRegType.max.setWidth 64 ∧
        operands.rm < IRegType.max.setWidth 64) ∧ operands.shiftImm.toNat % 2 ^ 32 < 64 := by
    rw [← cut]
    rcases kind with rfl | rfl <;> rfl
  have fine : Legal type operands ↔
      (operands.rd < IRegType.max.setWidth 64 ∧ operands.rn < IRegType.max.setWidth 64 ∧
        operands.rm < IRegType.max.setWidth 64) ∧ operands.shiftImm.toNat < 64 := by
    rcases kind with rfl | rfl <;> rfl
  have given (instr : Instr) : Given type operands instr ↔
      (grabRd instr).toNat = registerNumber operands.rd ∧
        (grabTbzTbnzBitIndex instr).toNat = operands.shiftImm.toNat := by
    rcases kind with rfl | rfl <;> rfl
  have dispatch
      (registers : operands.rd < IRegType.max.setWidth 64 ∧ operands.rn < IRegType.max.setWidth 64 ∧
        operands.rm < IRegType.max.setWidth 64) :
      ∃ isTbz, assemble type operands addr =
        assembleTbz isTbz (encodedRegister operands.rd) addr operands.imm operands.shiftImm := by
    rw [assemble_of_registers registers]
    rcases kind with rfl | rfl
    · exact ⟨true, rfl⟩
    · exact ⟨false, rfl⟩
  have refused (illegal : ¬ Legal type (operands.checked type)) :
      assemble type operands addr = none := by
    rw [checks] at illegal
    by_cases registers : operands.rd < IRegType.max.setWidth 64 ∧
      operands.rn < IRegType.max.setWidth 64 ∧ operands.rm < IRegType.max.setWidth 64
    · obtain ⟨isTbz, same⟩ := dispatch registers
      have large : ¬ (operands.shiftImm.setWidth 32 : U32) ≤ 63 := by
        rw [BitVec.le_def, BitVec.toNat_setWidth, show (63 : U32).toNat = 63 from rfl]
        exact fun small => illegal ⟨registers, by omega⟩
      rw [same]
      dsimp only [assembleTbz]
      rw [if_neg large, ite_self]
    · rw [assemble, if_neg registers]
  have encodes (legal : Legal type (operands.checked type)) :
      Encodes (assemble type operands addr) 14 (operands.imm - addr).toNat
        fun instr => Given type operands instr ↔ Legal type operands := by
    obtain ⟨registers, small⟩ := checks.mp legal
    obtain ⟨isTbz, same⟩ := dispatch registers
    rw [same]
    refine (encodes_assembleTbz isTbz small aligned).imp fun instr ⟨low, index⟩ => ?_
    rw [given, fine, grabTbzTbnzBitIndex_toNat, index]
    have register := grabRd_of_low registers.1 low
    exact ⟨fun ⟨_, whole⟩ => ⟨registers, by omega⟩, fun ⟨_, narrow⟩ => ⟨register, by omega⟩⟩
  have legal (holds : Legal type operands) : Legal type (operands.checked type) :=
    checks.mpr ⟨(fine.mp holds).1, by have := (fine.mp holds).2; omega⟩
  rcases kind with rfl | rfl <;>
    exact inverse_iff_of_encodes (show 13 < 31 by decide) aligned rfl rfl rfl rfl legal refused
      encodes

theorem isW_encodedRegister (rd : U64) : isW (encodedRegister rd) = isW (rd.setWidth 8) := by
  rw [encodedRegister]
  split
  · rename_i same
    rw [same]
    rfl
  · rfl

/-- An `ADR` or `ADRP` of which the distance is accepted. -/
theorem assembleAdr_of_accepted (isAdrp : Bool) (addr immV : U64) {rd : IRegType} {diffImm : U64}
    (wide : isW rd = false) (aligned : (isAdrp && !isAlignedPage immV) = false)
    (distance : diffImm = if isAdrp then (immV - (addr &&& ~~~bits 12)).sshiftRight 12
      else immV - addr) :
    (canBeImm21Neg diffImm = true → ∃ instr, assembleAdr isAdrp rd addr immV = some instr ∧
      instr.toNat / 2 ^ 24 % 2 ^ 5 = 0b10000 ∧ instr.toNat / 2 ^ 31 % 2 = isAdrp.toNat ∧
      instr.toNat / 2 ^ 5 % 2 ^ 19 * 4 + instr.toNat / 2 ^ 29 % 2 ^ 2 = diffImm.toNat % 2 ^ 21 ∧
      instr.toNat % 2 ^ 5 = rd.toNat % 2 ^ 5) ∧
    (¬ canBeImm21Neg diffImm = true → assembleAdr isAdrp rd addr immV = none) := by
  have same : assembleAdr isAdrp rd addr immV =
      if canBeImm21Neg diffImm then
        some ((((InstrBuilder.mk 0).set 31 24 (if isAdrp then cOpAdrp else cOpAdr)).set 30 29
          ((diffImm &&& bits 2).setWidth 32)).set 23 5
            ((diffImm >>> 2 &&& bits 24).setWidth 32) |>.set 4 0 ((reg rd).setWidth 32)).mValue
      else none := by
    have whole : (if isAdrp then
        (immV - (if isAdrp then addr &&& ~~~bits 12 else addr)).sshiftRight 12
          else immV - (if isAdrp then addr &&& ~~~bits 12 else addr)) = diffImm := by
      rw [distance]
      split <;> rfl
    rw [assembleAdr, wide, aligned, if_neg Bool.false_ne_true, if_neg Bool.false_ne_true]
    simp only [whole]
  rw [same]
  exact ⟨fun accepted => ⟨_, if_pos accepted, adr_fields isAdrp diffImm rd⟩, fun far => if_neg far⟩

theorem inverse_iff_of_adr {type : IInstrType} (kind : type = .Adr ∨ type = .Adrp) :
    Inverse type operands addr ↔ Exact type operands addr := by
  have fine : Legal type operands ↔
      (operands.rd < IRegType.max.setWidth 64 ∧ operands.rn < IRegType.max.setWidth 64 ∧
        operands.rm < IRegType.max.setWidth 64) ∧ isX (operands.rd.setWidth 8) = true := by
    rcases kind with rfl | rfl <;> rfl
  have exact_ : Exact type operands addr ↔ (Legal type operands → Fits type operands addr) := by
    rcases kind with rfl | rfl <;> rfl
  have wide (legal : Legal type operands) : isW (encodedRegister operands.rd) = false := by
    rw [isW_encodedRegister]
    exact Bool.not_eq_true' _ |>.mp (fine.mp legal).2
  have refused (illegal : ¬ Legal type operands) : assemble type operands addr = none := by
    rw [fine] at illegal
    by_cases registers : operands.rd < IRegType.max.setWidth 64 ∧
      operands.rn < IRegType.max.setWidth 64 ∧ operands.rm < IRegType.max.setWidth 64
    · have narrow : isW (encodedRegister operands.rd) = true := by
        rw [isW_encodedRegister]
        exact Bool.not_eq_false _ |>.mp fun wide => illegal ⟨registers, by rw [isX, wide]; rfl⟩
      rw [assemble_of_registers registers]
      rcases kind with rfl | rfl <;> exact if_pos narrow
    · rw [assemble, if_neg registers]
  rw [exact_]
  have low {instr : Instr} (legal : Legal type operands)
      (register : instr.toNat % 2 ^ 5 = (encodedRegister operands.rd).toNat % 2 ^ 5) :
      (grabRd instr).toNat = registerNumber operands.rd :=
    grabRd_of_low (fine.mp legal).1.1 register
  rcases kind with rfl | rfl
  · have accepted (legal : Legal .Adr operands) :=
      assembleAdr_of_accepted false addr operands.imm (wide legal) rfl rfl
    have check := canBeImm_neg_iff (operands.imm - addr) (show 21 < 64 by decide)
    apply inverse_iff_of_signed refused
    · intro _ skewed
      exact absurd (Nat.mod_one _) skewed
    · intro legal _ far
      rw [assemble_of_registers (fine.mp legal).1]
      exact (accepted legal).2 (mt check.mp far)
    · intro legal _ back ahead
      rw [assemble_of_registers (fine.mp legal).1]
      obtain ⟨instr, assembled, kind, bytes, field, register⟩ :=
        (accepted legal).1 (check.mpr ⟨back, ahead⟩)
      exact ⟨instr, assembled, low legal register,
        grabAdrAdrpAddr_eq_iff_of_adr kind bytes field⟩
  · have page (aligned : operands.imm.toNat % 4096 = 0) :
        (true && !isAlignedPage operands.imm) = false := by
      rw [(isAlignedPage_iff _).mpr aligned]
      rfl
    have accepted (legal : Legal .Adrp operands) (aligned : operands.imm.toNat % 4096 = 0) :=
      assembleAdr_of_accepted true addr operands.imm (wide legal) (page aligned) rfl
    have check := canBeImm_neg_iff ((operands.imm - (addr &&& ~~~bits 12)).sshiftRight 12)
      (show 21 < 64 by decide)
    rw [toInt_sshiftRight_page] at check
    apply inverse_iff_of_signed refused
    · intro legal skewed
      have odd : (true && !isAlignedPage operands.imm) = true := by
        rw [Bool.true_and, Bool.not_eq_true', ← Bool.not_eq_true, isAlignedPage_iff]
        exact skewed
      rw [assemble_of_registers (fine.mp legal).1]
      dsimp only
      rw [assembleAdr, wide legal, if_neg Bool.false_ne_true, if_pos odd]
    · intro legal aligned far
      rw [assemble_of_registers (fine.mp legal).1]
      refine (accepted legal aligned).2 (mt check.mp fun inside => far ?_)
      change -(2 * (2 ^ 32 : ℕ) : ℤ) ≤ (operands.imm - (addr &&& ~~~bits 12)).toInt ∧
        (operands.imm - (addr &&& ~~~bits 12)).toInt < 2 * ((2 ^ 32 : ℕ) : ℤ)
      omega
    · intro legal aligned back ahead
      change -(2 * (2 ^ 32 : ℕ) : ℤ) ≤ (operands.imm - (addr &&& ~~~bits 12)).toInt at back
      change (operands.imm - (addr &&& ~~~bits 12)).toInt < 2 * ((2 ^ 32 : ℕ) : ℤ) at ahead
      rw [assemble_of_registers (fine.mp legal).1]
      obtain ⟨instr, assembled, kind, pages, field, register⟩ :=
        (accepted legal aligned).1 (check.mpr (by omega))
      exact ⟨instr, assembled, low legal register,
        grabAdrAdrpAddr_eq_iff_of_adrp kind pages aligned field back ahead⟩

end

/-- Encoding and decoding are inverse over the range of an instruction exactly for the inputs that
lose nothing. -/
theorem inverse_iff (type : IInstrType) (operands : Operands) {addr : Ptr}
    (aligned : addr.toNat % 4 = 0) :
    Inverse type operands addr ↔ Exact type operands addr := by
  cases type with
  | Adr => exact inverse_iff_of_adr (.inl rfl)
  | Adrp => exact inverse_iff_of_adr (.inr rfl)
  | Bcond => exact inverse_iff_of_bcond aligned
  | Cbz => exact inverse_iff_of_register aligned (.inl rfl)
  | Cbnz => exact inverse_iff_of_register aligned (.inr (.inl rfl))
  | Tbz => exact inverse_iff_of_tbz aligned (.inl rfl)
  | Tbnz => exact inverse_iff_of_tbz aligned (.inr rfl)
  | LdrLiteral => exact inverse_iff_of_register aligned (.inr (.inr rfl))

theorem inverse_ahead : (0x1000 : Ptr).toNat % 4 = 0 ∧
    Inverse .Bcond { imm := 0x1040, shiftImm := 1 } 0x1000 := by
  refine ⟨rfl, (inverse_iff .Bcond _ rfl).mpr ?_⟩
  intro legal
  rw [Forward, if_pos (by decide)]
  exact fun _ => ⟨legal, by decide, by decide⟩

/-- A conditional branch to the instruction before it is refused. -/
theorem not_inverse_behind : (0x1000 : Ptr).toNat % 4 = 0 ∧
    ¬ Inverse .Bcond { imm := 0xffc, shiftImm := 1 } 0x1000 := by
  refine ⟨rfl, ?_⟩
  rintro ⟨-, accepts⟩
  have refused : (assemble .Bcond { imm := 0xffc, shiftImm := 1 } 0x1000).isSome = false := by
    decide
  have accepted := accepts ⟨by decide, by decide⟩ ⟨by decide, by decide, by decide⟩
  exact Bool.false_ne_true (refused.symm.trans accepted)

end Hakkun.Hook
