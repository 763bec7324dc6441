import Hakkun.Math.BitField

/-! # A64 instruction words

The encodings of the instructions that can be written by a small assembler, that depend on the
program counter, or that a code relocation may emit, after the encoding diagrams of the Arm
architecture. Every other word is kept as `other`. `encode` lays the fields out as the diagrams
do and `decode` reads them back; on well-formed instructions decoding inverts encoding.
-/

namespace Hakkun.A64

abbrev Word := BitVec 32

/-- A general register field; 31 is the zero register or the stack pointer by position. -/
abbrev RegField := BitVec 5

inductive Instr where
  | adr (rd : RegField) (imm : BitVec 21)
  | adrp (rd : RegField) (imm : BitVec 21)
  | b (imm : BitVec 26)
  | bl (imm : BitVec 26)
  | bcond (cond : BitVec 4) (imm : BitVec 19)
  | compareBranch (sf nonzero : Bool) (imm : BitVec 19) (rt : RegField)
  | testBranch (nonzero : Bool) (bit : BitVec 6) (imm : BitVec 14) (rt : RegField)
  | literal (opc : BitVec 2) (vector : Bool) (imm : BitVec 19) (rt : RegField)
  | moveWide (sf : Bool) (opc hw : BitVec 2) (imm : BitVec 16) (rd : RegField)
  | addSubImm (sf sub sh : Bool) (imm : BitVec 12) (rn rd : RegField)
  | addSubShifted (sf sub : Bool) (shift : BitVec 2) (rm : RegField) (amount : BitVec 6)
      (rn rd : RegField)
  | addSubExtended (sf sub : Bool) (rm : RegField) (option amount : BitVec 3) (rn rd : RegField)
  | logicalShifted (sf : Bool) (opc shift : BitVec 2) (rm : RegField) (amount : BitVec 6)
      (rn rd : RegField)
  | br (rn : RegField)
  | blr (rn : RegField)
  | ret (rn : RegField)
  | svc (imm : BitVec 16)
  | nop
  | other (word : Word)
deriving DecidableEq, Repr

namespace Instr

/-- The `moveWide` opcodes. -/
abbrev movn : BitVec 2 := 0b00
abbrev movz : BitVec 2 := 0b10
abbrev movk : BitVec 2 := 0b11

/-- The word of an instruction as the sum of its fields, each at its position. -/
def layout : Instr → ℕ
  | adr rd imm =>
    imm.toNat % 4 * 2 ^ 29 + 0b10000 * 2 ^ 24 + imm.toNat / 4 * 2 ^ 5 + rd.toNat
  | adrp rd imm =>
    2 ^ 31 + imm.toNat % 4 * 2 ^ 29 + 0b10000 * 2 ^ 24 + imm.toNat / 4 * 2 ^ 5 + rd.toNat
  | b imm => 0b000101 * 2 ^ 26 + imm.toNat
  | bl imm => 0b100101 * 2 ^ 26 + imm.toNat
  | bcond cond imm => 0b01010100 * 2 ^ 24 + imm.toNat * 2 ^ 5 + cond.toNat
  | compareBranch sf nonzero imm rt =>
    sf.toNat * 2 ^ 31 + 0b011010 * 2 ^ 25 + nonzero.toNat * 2 ^ 24 + imm.toNat * 2 ^ 5 + rt.toNat
  | testBranch nonzero bit imm rt =>
    bit.toNat / 32 * 2 ^ 31 + 0b011011 * 2 ^ 25 + nonzero.toNat * 2 ^ 24 +
      bit.toNat % 32 * 2 ^ 19 + imm.toNat * 2 ^ 5 + rt.toNat
  | literal opc vector imm rt =>
    opc.toNat * 2 ^ 30 + 0b011 * 2 ^ 27 + vector.toNat * 2 ^ 26 + imm.toNat * 2 ^ 5 + rt.toNat
  | moveWide sf opc hw imm rd =>
    sf.toNat * 2 ^ 31 + opc.toNat * 2 ^ 29 + 0b100101 * 2 ^ 23 + hw.toNat * 2 ^ 21 +
      imm.toNat * 2 ^ 5 + rd.toNat
  | addSubImm sf sub sh imm rn rd =>
    sf.toNat * 2 ^ 31 + sub.toNat * 2 ^ 30 + 0b0100010 * 2 ^ 23 + sh.toNat * 2 ^ 22 +
      imm.toNat * 2 ^ 10 + rn.toNat * 2 ^ 5 + rd.toNat
  | addSubShifted sf sub shift rm amount rn rd =>
    sf.toNat * 2 ^ 31 + sub.toNat * 2 ^ 30 + 0b001011 * 2 ^ 24 + shift.toNat * 2 ^ 22 +
      rm.toNat * 2 ^ 16 + amount.toNat * 2 ^ 10 + rn.toNat * 2 ^ 5 + rd.toNat
  | addSubExtended sf sub rm option amount rn rd =>
    sf.toNat * 2 ^ 31 + sub.toNat * 2 ^ 30 + 0b001011001 * 2 ^ 21 + rm.toNat * 2 ^ 16 +
      option.toNat * 2 ^ 13 + amount.toNat * 2 ^ 10 + rn.toNat * 2 ^ 5 + rd.toNat
  | logicalShifted sf opc shift rm amount rn rd =>
    sf.toNat * 2 ^ 31 + opc.toNat * 2 ^ 29 + 0b01010 * 2 ^ 24 + shift.toNat * 2 ^ 22 +
      rm.toNat * 2 ^ 16 + amount.toNat * 2 ^ 10 + rn.toNat * 2 ^ 5 + rd.toNat
  | br rn => 0b1101011000011111000000 * 2 ^ 10 + rn.toNat * 2 ^ 5
  | blr rn => 0b1101011000111111000000 * 2 ^ 10 + rn.toNat * 2 ^ 5
  | ret rn => 0b1101011001011111000000 * 2 ^ 10 + rn.toNat * 2 ^ 5
  | svc imm => 0b11010100000 * 2 ^ 21 + imm.toNat * 2 ^ 5 + 1
  | nop => 0xD503201F
  | other word => word.toNat

theorem layout_lt (i : Instr) : i.layout < 2 ^ 32 := by
  cases i with
  | compareBranch sf nonzero =>
    have := sf.toNat_lt
    have := nonzero.toNat_lt
    simp only [layout]
    omega
  | testBranch nonzero => have := nonzero.toNat_lt; simp only [layout]; omega
  | literal _ vector => have := vector.toNat_lt; simp only [layout]; omega
  | moveWide sf => have := sf.toNat_lt; simp only [layout]; omega
  | addSubImm sf sub sh =>
    have := sf.toNat_lt
    have := sub.toNat_lt
    have := sh.toNat_lt
    simp only [layout]
    omega
  | addSubShifted sf sub => have := sf.toNat_lt; have := sub.toNat_lt; simp only [layout]; omega
  | addSubExtended sf sub => have := sf.toNat_lt; have := sub.toNat_lt; simp only [layout]; omega
  | logicalShifted sf => have := sf.toNat_lt; simp only [layout]; omega
  | _ => simp only [layout]; omega

/-- The word of an instruction. -/
def encode (i : Instr) : Word := BitVec.ofNat 32 i.layout

theorem encode_toNat (i : Instr) : i.encode.toNat = i.layout := by
  rw [encode, BitVec.toNat_ofNat, Nat.mod_eq_of_lt i.layout_lt]

/-- Data processing with an immediate, and PC-relative addresses. -/
def decodeImmediate (w : Word) : Instr :=
  if w.extractLsb' 24 5 = 0b10000 then
    if w.extractLsb' 31 1 = 1 then adrp (w.extractLsb' 0 5)
      (w.extractLsb' 5 19 ++ w.extractLsb' 29 2)
    else adr (w.extractLsb' 0 5) (w.extractLsb' 5 19 ++ w.extractLsb' 29 2)
  else if w.extractLsb' 23 7 = 0b0100010 then
    addSubImm (w.extractLsb' 31 1 = 1) (w.extractLsb' 30 1 = 1) (w.extractLsb' 22 1 = 1)
      (w.extractLsb' 10 12) (w.extractLsb' 5 5) (w.extractLsb' 0 5)
  else if w.extractLsb' 23 6 = 0b100101 ∧ w.extractLsb' 29 2 ≠ 0b01 ∧
      (w.extractLsb' 31 1 = 1 ∨ w.extractLsb' 22 1 = 0) then
    moveWide (w.extractLsb' 31 1 = 1) (w.extractLsb' 29 2) (w.extractLsb' 21 2)
      (w.extractLsb' 5 16) (w.extractLsb' 0 5)
  else other w

/-- Branches, exceptions and hints. -/
def decodeBranch (w : Word) : Instr :=
  if w.extractLsb' 26 5 = 0b00101 then
    if w.extractLsb' 31 1 = 1 then bl (w.extractLsb' 0 26) else b (w.extractLsb' 0 26)
  else if w.extractLsb' 24 8 = 0b01010100 ∧ w.extractLsb' 4 1 = 0 then
    bcond (w.extractLsb' 0 4) (w.extractLsb' 5 19)
  else if w.extractLsb' 25 6 = 0b011010 then
    compareBranch (w.extractLsb' 31 1 = 1) (w.extractLsb' 24 1 = 1) (w.extractLsb' 5 19)
      (w.extractLsb' 0 5)
  else if w.extractLsb' 25 6 = 0b011011 then
    testBranch (w.extractLsb' 24 1 = 1) (w.extractLsb' 31 1 ++ w.extractLsb' 19 5)
      (w.extractLsb' 5 14) (w.extractLsb' 0 5)
  else if w.extractLsb' 10 22 = 0b1101011000011111000000 ∧ w.extractLsb' 0 5 = 0 then
    br (w.extractLsb' 5 5)
  else if w.extractLsb' 10 22 = 0b1101011000111111000000 ∧ w.extractLsb' 0 5 = 0 then
    blr (w.extractLsb' 5 5)
  else if w.extractLsb' 10 22 = 0b1101011001011111000000 ∧ w.extractLsb' 0 5 = 0 then
    ret (w.extractLsb' 5 5)
  else if w.extractLsb' 21 11 = 0b11010100000 ∧ w.extractLsb' 0 5 = 0b00001 then
    svc (w.extractLsb' 5 16)
  else if w = 0xD503201F then nop
  else other w

/-- Data processing with registers. -/
def decodeRegister (w : Word) : Instr :=
  if w.extractLsb' 24 6 = 0b001011 ∧ w.extractLsb' 21 1 = 0 ∧ w.extractLsb' 22 2 ≠ 0b11 ∧
      (w.extractLsb' 31 1 = 1 ∨ w.extractLsb' 15 1 = 0) then
    addSubShifted (w.extractLsb' 31 1 = 1) (w.extractLsb' 30 1 = 1) (w.extractLsb' 22 2)
      (w.extractLsb' 16 5) (w.extractLsb' 10 6) (w.extractLsb' 5 5) (w.extractLsb' 0 5)
  else if w.extractLsb' 21 9 = 0b001011001 ∧ w.extractLsb' 10 3 ≤ 4 then
    addSubExtended (w.extractLsb' 31 1 = 1) (w.extractLsb' 30 1 = 1) (w.extractLsb' 16 5)
      (w.extractLsb' 13 3) (w.extractLsb' 10 3) (w.extractLsb' 5 5) (w.extractLsb' 0 5)
  else if w.extractLsb' 24 5 = 0b01010 ∧ w.extractLsb' 21 1 = 0 ∧
      (w.extractLsb' 31 1 = 1 ∨ w.extractLsb' 15 1 = 0) then
    logicalShifted (w.extractLsb' 31 1 = 1) (w.extractLsb' 29 2) (w.extractLsb' 22 2)
      (w.extractLsb' 16 5) (w.extractLsb' 10 6) (w.extractLsb' 5 5) (w.extractLsb' 0 5)
  else other w

/-- The instruction of a word, by the main groups of bits 28 to 25. -/
def decode (w : Word) : Instr :=
  if w.extractLsb' 26 3 = 0b100 then decodeImmediate w
  else if w.extractLsb' 26 3 = 0b101 then decodeBranch w
  else if w.extractLsb' 25 3 = 0b101 then decodeRegister w
  else if w.extractLsb' 27 3 = 0b011 ∧ w.extractLsb' 24 2 = 0b00 then
    literal (w.extractLsb' 30 2) (w.extractLsb' 26 1 = 1) (w.extractLsb' 5 19) (w.extractLsb' 0 5)
  else other w

/-- The field values that the architecture allocates. -/
def WellFormed : Instr → Prop
  | moveWide sf opc hw _ _ => opc.toNat ≠ 1 ∧ (sf.toNat = 0 → hw.toNat < 2)
  | addSubShifted sf _ shift _ amount _ _ =>
    shift.toNat ≠ 3 ∧ (sf.toNat = 0 → amount.toNat < 32)
  | addSubExtended _ _ _ _ amount _ _ => amount.toNat ≤ 4
  | logicalShifted sf _ _ _ amount _ _ => sf.toNat = 0 → amount.toNat < 32
  | other word => decode word = other word
  | _ => True


private theorem field_eq_iff {n : ℕ} {word : BitVec n} {lo width : ℕ} {value : BitVec width} :
    word.extractLsb' lo width = value ↔ word.toNat / 2 ^ lo % 2 ^ width = value.toNat := by
  rw [← BitVec.toNat_inj, Math.toNat_field]

private theorem field_le_iff {n : ℕ} {word : BitVec n} {lo width : ℕ} {value : BitVec width} :
    word.extractLsb' lo width ≤ value ↔ word.toNat / 2 ^ lo % 2 ^ width ≤ value.toNat := by
  rw [BitVec.le_def, Math.toNat_field]

/-- A field that the word holds in two parts. -/
private theorem append_eq {m n : ℕ} {high : BitVec m} {low : BitVec n} {value : BitVec (m + n)}
    {a b : ℕ} (upper : high.toNat = a) (lower : low.toNat = b) (sum : value.toNat = a * 2 ^ n + b) :
    high ++ low = value := by
  rw [← BitVec.toNat_inj, Math.toNat_append_eq_add, upper, lower, sum]

/-- A field at the low end of a quotient, and the quotient above it. -/
private theorem digit {w q v : ℕ} (lo width : ℕ) (here : w / 2 ^ lo = q * 2 ^ width + v)
    (small : v < 2 ^ width) : w / 2 ^ lo % 2 ^ width = v ∧ w / 2 ^ (lo + width) = q := by
  rw [Nat.pow_add, ← Nat.div_div_eq_div_mul, here, Nat.mul_add_mod_self_right,
    Nat.mod_eq_of_lt small, Nat.add_comm, Nat.add_mul_div_right _ _ (Nat.two_pow_pos width),
    Nat.div_eq_of_lt small, Nat.zero_add]
  exact ⟨rfl, rfl⟩

/-- A field within another one. -/
private theorem part {w q v : ℕ} (lo width off n : ℕ) (here : w / 2 ^ lo = q * 2 ^ width + v)
    (inside : off + n ≤ width) : w / 2 ^ (lo + off) % 2 ^ n = v / 2 ^ off % 2 ^ n := by
  obtain ⟨rest, rfl⟩ := Nat.exists_eq_add_of_le inside
  have split : q * 2 ^ (off + n + rest) = q * 2 ^ rest * 2 ^ n * 2 ^ off := by
    rw [Nat.pow_add, Nat.pow_add]
    ring
  rw [Nat.pow_add, ← Nat.div_div_eq_div_mul, here, split, Nat.add_comm,
    Nat.add_mul_div_right _ _ (Nat.two_pow_pos off), Nat.add_mul_mod_self_right]

/-- A one-bit field read as a condition. -/
private theorem flag_of_field {word : Word} {lo : ℕ} {value : Bool}
    (field : word.toNat / 2 ^ lo % 2 ^ 1 = value.toNat) :
    decide (word.extractLsb' lo 1 = 1) = value := by
  have iff : word.extractLsb' lo 1 = 1 ↔ value.toNat = 1 := by
    rw [field_eq_iff, field]
    rfl
  rw [decide_eq_decide.mpr iff]
  cases value <;> rfl

/-- A shift of a narrow instruction has no sixth bit. -/
private theorem wide_of_narrow {sf : Bool} {amount : BitVec 6}
    (amounts : sf.toNat = 0 → amount.toNat < 32) :
    sf.toNat = 1 ∨ amount.toNat / 2 ^ 5 % 2 ^ 1 = 0 := by
  cases sf with
  | false =>
    have low : amount.toNat < 2 ^ 5 := amounts rfl
    exact .inr (by rw [Nat.div_eq_of_lt low, Nat.zero_mod])
  | true => exact .inl rfl

private theorem decode_eq_immediate {w : Word} (group : w.toNat / 2 ^ 26 % 2 ^ 3 = 0b100) :
    decode w = decodeImmediate w := by
  rw [decode, if_pos (field_eq_iff.mpr group)]

private theorem decode_eq_branch {w : Word} (group : w.toNat / 2 ^ 26 % 2 ^ 3 = 0b101) :
    decode w = decodeBranch w := by
  rw [decode, if_neg (by rw [field_eq_iff, group]; decide), if_pos (field_eq_iff.mpr group)]

private theorem decode_eq_register {w : Word} (other : w.toNat / 2 ^ 26 % 2 ^ 3 = 0b010)
    (group : w.toNat / 2 ^ 25 % 2 ^ 3 = 0b101) : decode w = decodeRegister w := by
  rw [decode, if_neg (by rw [field_eq_iff, other]; decide),
    if_neg (by rw [field_eq_iff, other]; decide), if_pos (field_eq_iff.mpr group)]

/-- Decoding inverts encoding. -/
theorem decode_encode (i : Instr) (wf : i.WellFormed) : decode i.encode = i := by
  have sum := encode_toNat i
  cases i with
  | other word =>
    have same : encode (other word) = word := by
      rw [← BitVec.toNat_inj, sum, layout]
    rw [same]
    exact wf
  | adr rd imm =>
    simp only [layout] at sum
    have digits : (adr rd imm).encode.toNat / 2 ^ 0 =
        ((((0 * 2 ^ 1 + 0) * 2 ^ 2 + imm.toNat % 4) * 2 ^ 5 + 0b10000) * 2 ^ 19 +
          imm.toNat / 4) * 2 ^ 5 + rd.toNat := by
      omega
    have low : imm.toNat % 4 < 2 ^ 2 := Nat.mod_lt _ (by decide)
    have high : imm.toNat / 4 < 2 ^ 19 := Nat.div_lt_of_lt_mul imm.isLt
    generalize encode _ = w at *
    obtain ⟨at0, above5⟩ := digit 0 5 digits rd.isLt
    obtain ⟨at5, above24⟩ := digit 5 19 above5 high
    obtain ⟨at24, above29⟩ := digit 24 5 above24 (by decide)
    obtain ⟨at29, above31⟩ := digit 29 2 above29 low
    obtain ⟨at31, -⟩ := digit 31 1 above31 (by decide)
    have at26 := part 24 5 2 3 above24 (by decide)
    rw [decode_eq_immediate at26, decodeImmediate,
      if_pos (field_eq_iff.mpr at24), if_neg (by rw [field_eq_iff, at31]; decide), adr.injEq]
    exact ⟨field_eq_iff.mpr at0, append_eq (by rw [Math.toNat_field, at5])
      (by rw [Math.toNat_field, at29]) (Nat.div_add_mod' imm.toNat 4).symm⟩
  | adrp rd imm =>
    simp only [layout] at sum
    have digits : (adrp rd imm).encode.toNat / 2 ^ 0 =
        ((((0 * 2 ^ 1 + 1) * 2 ^ 2 + imm.toNat % 4) * 2 ^ 5 + 0b10000) * 2 ^ 19 +
          imm.toNat / 4) * 2 ^ 5 + rd.toNat := by
      omega
    have low : imm.toNat % 4 < 2 ^ 2 := Nat.mod_lt _ (by decide)
    have high : imm.toNat / 4 < 2 ^ 19 := Nat.div_lt_of_lt_mul imm.isLt
    generalize encode _ = w at *
    obtain ⟨at0, above5⟩ := digit 0 5 digits rd.isLt
    obtain ⟨at5, above24⟩ := digit 5 19 above5 high
    obtain ⟨at24, above29⟩ := digit 24 5 above24 (by decide)
    obtain ⟨at29, above31⟩ := digit 29 2 above29 low
    obtain ⟨at31, -⟩ := digit 31 1 above31 (by decide)
    have at26 := part 24 5 2 3 above24 (by decide)
    rw [decode_eq_immediate at26, decodeImmediate,
      if_pos (field_eq_iff.mpr at24), if_pos (field_eq_iff.mpr at31), adrp.injEq]
    exact ⟨field_eq_iff.mpr at0, append_eq (by rw [Math.toNat_field, at5])
      (by rw [Math.toNat_field, at29]) (Nat.div_add_mod' imm.toNat 4).symm⟩
  | b imm =>
    simp only [layout] at sum
    have digits : (b imm).encode.toNat / 2 ^ 0 =
        (0 * 2 ^ 6 + 0b000101) * 2 ^ 26 + imm.toNat := by
      omega
    generalize encode _ = w at *
    obtain ⟨at0, above26⟩ := digit 0 26 digits imm.isLt
    have at26 := part 26 6 0 3 above26 (by decide)
    have group := part 26 6 0 5 above26 (by decide)
    have at31 := part 26 6 5 1 above26 (by decide)
    rw [decode_eq_branch at26, decodeBranch, if_pos (by rw [field_eq_iff, group]; decide),
      if_neg (by rw [field_eq_iff, at31]; decide), b.injEq]
    exact field_eq_iff.mpr at0
  | bl imm =>
    simp only [layout] at sum
    have digits : (bl imm).encode.toNat / 2 ^ 0 =
        (0 * 2 ^ 6 + 0b100101) * 2 ^ 26 + imm.toNat := by
      omega
    generalize encode _ = w at *
    obtain ⟨at0, above26⟩ := digit 0 26 digits imm.isLt
    have at26 := part 26 6 0 3 above26 (by decide)
    have group := part 26 6 0 5 above26 (by decide)
    have at31 := part 26 6 5 1 above26 (by decide)
    rw [decode_eq_branch at26, decodeBranch, if_pos (by rw [field_eq_iff, group]; decide),
      if_pos (by rw [field_eq_iff, at31]; decide), bl.injEq]
    exact field_eq_iff.mpr at0
  | bcond cond imm =>
    simp only [layout] at sum
    have digits : (bcond cond imm).encode.toNat / 2 ^ 0 =
        ((0 * 2 ^ 8 + 0b01010100) * 2 ^ 19 + imm.toNat) * 2 ^ 5 + cond.toNat := by
      omega
    generalize encode _ = w at *
    have at0 := part 0 5 0 4 digits (by decide)
    have at4 := part 0 5 4 1 digits (by decide)
    rw [Nat.div_eq_of_lt cond.isLt, Nat.zero_mod] at at4
    obtain ⟨-, above5⟩ := digit 0 5 digits (Nat.lt_trans cond.isLt (by decide))
    obtain ⟨at5, above24⟩ := digit 5 19 above5 imm.isLt
    obtain ⟨at24, -⟩ := digit 24 8 above24 (by decide)
    have at26 := part 24 8 2 3 above24 (by decide)
    have group := part 24 8 2 5 above24 (by decide)
    have field : cond.toNat / 2 ^ 0 % 2 ^ 4 = cond.toNat := by
      rw [Nat.pow_zero, Nat.div_one, Nat.mod_eq_of_lt cond.isLt]
    rw [decode_eq_branch at26, decodeBranch, if_neg (by rw [field_eq_iff, group]; decide),
      if_pos ⟨field_eq_iff.mpr at24, field_eq_iff.mpr at4⟩, bcond.injEq]
    exact ⟨field_eq_iff.mpr (at0.trans field), field_eq_iff.mpr at5⟩
  | compareBranch sf nonzero imm rt =>
    simp only [layout] at sum
    have digits : (compareBranch sf nonzero imm rt).encode.toNat / 2 ^ 0 =
        ((((0 * 2 ^ 1 + sf.toNat) * 2 ^ 6 + 0b011010) * 2 ^ 1 + nonzero.toNat) * 2 ^ 19 +
          imm.toNat) * 2 ^ 5 + rt.toNat := by
      omega
    generalize encode _ = w at *
    obtain ⟨at0, above5⟩ := digit 0 5 digits rt.isLt
    obtain ⟨at5, above24⟩ := digit 5 19 above5 imm.isLt
    obtain ⟨at24, above25⟩ := digit 24 1 above24 nonzero.toNat_lt
    obtain ⟨at25, above31⟩ := digit 25 6 above25 (by decide)
    obtain ⟨at31, -⟩ := digit 31 1 above31 sf.toNat_lt
    have at26 := part 25 6 1 3 above25 (by decide)
    have group := part 25 6 1 5 above25 (by decide)
    have plain : ¬ w.toNat / 2 ^ 24 % 2 ^ 8 = 0b01010100 := by
      clear * - at25
      omega
    rw [decode_eq_branch at26, decodeBranch, if_neg (by rw [field_eq_iff, group]; decide),
      if_neg (fun both => plain (field_eq_iff.mp both.1)), if_pos (field_eq_iff.mpr at25),
      compareBranch.injEq]
    exact ⟨flag_of_field at31, flag_of_field at24, field_eq_iff.mpr at5, field_eq_iff.mpr at0⟩
  | testBranch nonzero bit imm rt =>
    simp only [layout] at sum
    have digits : (testBranch nonzero bit imm rt).encode.toNat / 2 ^ 0 =
        (((((0 * 2 ^ 1 + bit.toNat / 32) * 2 ^ 6 + 0b011011) * 2 ^ 1 + nonzero.toNat) * 2 ^ 5 +
          bit.toNat % 32) * 2 ^ 14 + imm.toNat) * 2 ^ 5 + rt.toNat := by
      omega
    have low : bit.toNat % 32 < 2 ^ 5 := Nat.mod_lt _ (by decide)
    have high : bit.toNat / 32 < 2 ^ 1 := Nat.div_lt_of_lt_mul bit.isLt
    generalize encode _ = w at *
    obtain ⟨at0, above5⟩ := digit 0 5 digits rt.isLt
    obtain ⟨at5, above19⟩ := digit 5 14 above5 imm.isLt
    obtain ⟨at19, above24⟩ := digit 19 5 above19 low
    obtain ⟨at24, above25⟩ := digit 24 1 above24 nonzero.toNat_lt
    obtain ⟨at25, above31⟩ := digit 25 6 above25 (by decide)
    obtain ⟨at31, -⟩ := digit 31 1 above31 high
    have at26 := part 25 6 1 3 above25 (by decide)
    have group := part 25 6 1 5 above25 (by decide)
    have plain : ¬ w.toNat / 2 ^ 24 % 2 ^ 8 = 0b01010100 := by
      clear * - at25
      omega
    rw [decode_eq_branch at26, decodeBranch, if_neg (by rw [field_eq_iff, group]; decide),
      if_neg (fun both => plain (field_eq_iff.mp both.1)),
      if_neg (by rw [field_eq_iff, at25]; decide), if_pos (field_eq_iff.mpr at25),
      testBranch.injEq]
    exact ⟨flag_of_field at24, append_eq (by rw [Math.toNat_field, at31])
      (by rw [Math.toNat_field, at19]) (Nat.div_add_mod' bit.toNat 32).symm, field_eq_iff.mpr at5,
      field_eq_iff.mpr at0⟩
  | literal opc vector imm rt =>
    simp only [layout] at sum
    have digits : (literal opc vector imm rt).encode.toNat / 2 ^ 0 =
        (((((0 * 2 ^ 2 + opc.toNat) * 2 ^ 3 + 0b011) * 2 ^ 1 + vector.toNat) * 2 ^ 2 + 0) * 2 ^ 19 +
          imm.toNat) * 2 ^ 5 + rt.toNat := by
      omega
    generalize encode _ = w at *
    obtain ⟨at0, above5⟩ := digit 0 5 digits rt.isLt
    obtain ⟨at5, above24⟩ := digit 5 19 above5 imm.isLt
    obtain ⟨at24, above26⟩ := digit 24 2 above24 (by decide)
    obtain ⟨at26, above27⟩ := digit 26 1 above26 vector.toNat_lt
    obtain ⟨at27, above30⟩ := digit 27 3 above27 (by decide)
    obtain ⟨at30, -⟩ := digit 30 2 above30 opc.isLt
    have immediate : ¬ w.toNat / 2 ^ 26 % 2 ^ 3 = 0b100 := by
      clear * - at27
      omega
    have branch : ¬ w.toNat / 2 ^ 26 % 2 ^ 3 = 0b101 := by
      clear * - at27
      omega
    have register : ¬ w.toNat / 2 ^ 25 % 2 ^ 3 = 0b101 := by
      clear * - at24
      omega
    rw [decode, if_neg (fun same => immediate (field_eq_iff.mp same)),
      if_neg (fun same => branch (field_eq_iff.mp same)),
      if_neg (fun same => register (field_eq_iff.mp same)),
      if_pos ⟨field_eq_iff.mpr at27, field_eq_iff.mpr at24⟩, literal.injEq]
    exact ⟨field_eq_iff.mpr at30, flag_of_field at26, field_eq_iff.mpr at5, field_eq_iff.mpr at0⟩
  | moveWide sf opc hw imm rd =>
    obtain ⟨opcode, half⟩ := wf
    simp only [layout] at sum
    have digits : (moveWide sf opc hw imm rd).encode.toNat / 2 ^ 0 =
        (((((0 * 2 ^ 1 + sf.toNat) * 2 ^ 2 + opc.toNat) * 2 ^ 6 + 0b100101) * 2 ^ 2 +
          hw.toNat) * 2 ^ 16 + imm.toNat) * 2 ^ 5 + rd.toNat := by
      omega
    generalize encode _ = w at *
    obtain ⟨at0, above5⟩ := digit 0 5 digits rd.isLt
    obtain ⟨at5, above21⟩ := digit 5 16 above5 imm.isLt
    obtain ⟨at21, above23⟩ := digit 21 2 above21 hw.isLt
    have at22 := part 21 2 1 1 above21 (by decide)
    obtain ⟨at23, above29⟩ := digit 23 6 above23 (by decide)
    obtain ⟨at29, above31⟩ := digit 29 2 above29 opc.isLt
    obtain ⟨at31, -⟩ := digit 31 1 above31 sf.toNat_lt
    have at24 := part 23 6 1 5 above23 (by decide)
    have at26 := part 23 6 3 3 above23 (by decide)
    have add : ¬ w.toNat / 2 ^ 23 % 2 ^ 7 = 0b0100010 := by
      clear * - at23
      omega
    have width : sf.toNat = 1 ∨ hw.toNat / 2 ^ 1 % 2 ^ 1 = 0 := by
      cases sf with
      | false =>
        have low : hw.toNat < 2 ^ 1 := half rfl
        exact .inr (by rw [Nat.div_eq_of_lt low, Nat.zero_mod])
      | true => exact .inl rfl
    rw [decode_eq_immediate at26, decodeImmediate,
      if_neg (by rw [field_eq_iff, at24]; decide), if_neg (fun same => add (field_eq_iff.mp same)),
      if_pos ⟨field_eq_iff.mpr at23, by rw [ne_eq, field_eq_iff, at29]; exact opcode,
        by rw [field_eq_iff, field_eq_iff, at31, at22]; exact width⟩, moveWide.injEq]
    exact ⟨flag_of_field at31, field_eq_iff.mpr at29, field_eq_iff.mpr at21, field_eq_iff.mpr at5,
      field_eq_iff.mpr at0⟩
  | addSubImm sf sub sh imm rn rd =>
    simp only [layout] at sum
    have digits : (addSubImm sf sub sh imm rn rd).encode.toNat / 2 ^ 0 =
        ((((((0 * 2 ^ 1 + sf.toNat) * 2 ^ 1 + sub.toNat) * 2 ^ 7 + 0b0100010) * 2 ^ 1 +
          sh.toNat) * 2 ^ 12 + imm.toNat) * 2 ^ 5 + rn.toNat) * 2 ^ 5 + rd.toNat := by
      omega
    generalize encode _ = w at *
    obtain ⟨at0, above5⟩ := digit 0 5 digits rd.isLt
    obtain ⟨at5, above10⟩ := digit 5 5 above5 rn.isLt
    obtain ⟨at10, above22⟩ := digit 10 12 above10 imm.isLt
    obtain ⟨at22, above23⟩ := digit 22 1 above22 sh.toNat_lt
    obtain ⟨at23, above30⟩ := digit 23 7 above23 (by decide)
    obtain ⟨at30, above31⟩ := digit 30 1 above30 sub.toNat_lt
    obtain ⟨at31, -⟩ := digit 31 1 above31 sf.toNat_lt
    have at24 := part 23 7 1 5 above23 (by decide)
    have at26 := part 23 7 3 3 above23 (by decide)
    rw [decode_eq_immediate at26, decodeImmediate,
      if_neg (by rw [field_eq_iff, at24]; decide), if_pos (field_eq_iff.mpr at23),
      addSubImm.injEq]
    exact ⟨flag_of_field at31, flag_of_field at30, flag_of_field at22, field_eq_iff.mpr at10,
      field_eq_iff.mpr at5, field_eq_iff.mpr at0⟩
  | addSubShifted sf sub shift rm amount rn rd =>
    obtain ⟨kind, amounts⟩ := wf
    simp only [layout] at sum
    have digits : (addSubShifted sf sub shift rm amount rn rd).encode.toNat / 2 ^ 0 =
        (((((((0 * 2 ^ 1 + sf.toNat) * 2 ^ 1 + sub.toNat) * 2 ^ 6 + 0b001011) * 2 ^ 2 +
          shift.toNat) * 2 ^ 6 + rm.toNat) * 2 ^ 6 + amount.toNat) * 2 ^ 5 + rn.toNat) * 2 ^ 5 +
          rd.toNat := by
      omega
    generalize encode _ = w at *
    obtain ⟨at0, above5⟩ := digit 0 5 digits rd.isLt
    obtain ⟨at5, above10⟩ := digit 5 5 above5 rn.isLt
    obtain ⟨at10, above16⟩ := digit 10 6 above10 amount.isLt
    have at15 := part 10 6 5 1 above10 (by decide)
    have at16 := part 16 6 0 5 above16 (by decide)
    have at21 := part 16 6 5 1 above16 (by decide)
    have registers : rm.toNat < 2 ^ 6 := Nat.lt_trans rm.isLt (by decide)
    obtain ⟨-, above22⟩ := digit 16 6 above16 registers
    obtain ⟨at22, above24⟩ := digit 22 2 above22 shift.isLt
    obtain ⟨at24, above30⟩ := digit 24 6 above24 (by decide)
    obtain ⟨at30, above31⟩ := digit 30 1 above30 sub.toNat_lt
    obtain ⟨at31, -⟩ := digit 31 1 above31 sf.toNat_lt
    have at25 := part 24 6 1 3 above24 (by decide)
    have at26 := part 24 6 2 3 above24 (by decide)
    rw [Nat.pow_zero, Nat.div_one, Nat.mod_eq_of_lt rm.isLt] at at16
    rw [Nat.div_eq_of_lt rm.isLt] at at21
    have width := wide_of_narrow amounts
    rw [decode_eq_register at26 at25, decodeRegister,
      if_pos ⟨field_eq_iff.mpr at24, field_eq_iff.mpr at21,
        by rw [ne_eq, field_eq_iff, at22]; exact kind,
        by rw [field_eq_iff, field_eq_iff, at31, at15]; exact width⟩, addSubShifted.injEq]
    exact ⟨flag_of_field at31, flag_of_field at30, field_eq_iff.mpr at22, field_eq_iff.mpr at16,
      field_eq_iff.mpr at10, field_eq_iff.mpr at5, field_eq_iff.mpr at0⟩
  | addSubExtended sf sub rm option amount rn rd =>
    have amounts : amount.toNat ≤ 4 := wf
    simp only [layout] at sum
    have digits : (addSubExtended sf sub rm option amount rn rd).encode.toNat / 2 ^ 0 =
        (((((((0 * 2 ^ 1 + sf.toNat) * 2 ^ 1 + sub.toNat) * 2 ^ 9 + 0b001011001) * 2 ^ 5 +
          rm.toNat) * 2 ^ 3 + option.toNat) * 2 ^ 3 + amount.toNat) * 2 ^ 5 + rn.toNat) * 2 ^ 5 +
          rd.toNat := by
      omega
    generalize encode _ = w at *
    obtain ⟨at0, above5⟩ := digit 0 5 digits rd.isLt
    obtain ⟨at5, above10⟩ := digit 5 5 above5 rn.isLt
    obtain ⟨at10, above13⟩ := digit 10 3 above10 amount.isLt
    obtain ⟨at13, above16⟩ := digit 13 3 above13 option.isLt
    obtain ⟨at16, above21⟩ := digit 16 5 above16 rm.isLt
    obtain ⟨at21, above30⟩ := digit 21 9 above21 (by decide)
    obtain ⟨at30, above31⟩ := digit 30 1 above30 sub.toNat_lt
    obtain ⟨at31, -⟩ := digit 31 1 above31 sf.toNat_lt
    have low21 := part 21 9 0 1 above21 (by decide)
    have at25 := part 21 9 4 3 above21 (by decide)
    have at26 := part 21 9 5 3 above21 (by decide)
    rw [decode_eq_register at26 at25, decodeRegister,
      if_neg (fun both => absurd (field_eq_iff.mp both.2.1) (by rw [low21]; decide)),
      if_pos ⟨field_eq_iff.mpr at21, by rw [field_le_iff, at10]; exact amounts⟩,
      addSubExtended.injEq]
    exact ⟨flag_of_field at31, flag_of_field at30, field_eq_iff.mpr at16, field_eq_iff.mpr at13,
      field_eq_iff.mpr at10, field_eq_iff.mpr at5, field_eq_iff.mpr at0⟩
  | logicalShifted sf opc shift rm amount rn rd =>
    have amounts : sf.toNat = 0 → amount.toNat < 32 := wf
    simp only [layout] at sum
    have digits : (logicalShifted sf opc shift rm amount rn rd).encode.toNat / 2 ^ 0 =
        (((((((0 * 2 ^ 1 + sf.toNat) * 2 ^ 2 + opc.toNat) * 2 ^ 5 + 0b01010) * 2 ^ 2 +
          shift.toNat) * 2 ^ 6 + rm.toNat) * 2 ^ 6 + amount.toNat) * 2 ^ 5 + rn.toNat) * 2 ^ 5 +
          rd.toNat := by
      omega
    generalize encode _ = w at *
    obtain ⟨at0, above5⟩ := digit 0 5 digits rd.isLt
    obtain ⟨at5, above10⟩ := digit 5 5 above5 rn.isLt
    obtain ⟨at10, above16⟩ := digit 10 6 above10 amount.isLt
    have at15 := part 10 6 5 1 above10 (by decide)
    have at16 := part 16 6 0 5 above16 (by decide)
    have at21 := part 16 6 5 1 above16 (by decide)
    have registers : rm.toNat < 2 ^ 6 := Nat.lt_trans rm.isLt (by decide)
    obtain ⟨-, above22⟩ := digit 16 6 above16 registers
    obtain ⟨at22, above24⟩ := digit 22 2 above22 shift.isLt
    obtain ⟨at24, above29⟩ := digit 24 5 above24 (by decide)
    obtain ⟨at29, above31⟩ := digit 29 2 above29 opc.isLt
    obtain ⟨at31, -⟩ := digit 31 1 above31 sf.toNat_lt
    have at25 := part 24 5 1 3 above24 (by decide)
    have at26 := part 24 5 2 3 above24 (by decide)
    rw [Nat.pow_zero, Nat.div_one, Nat.mod_eq_of_lt rm.isLt] at at16
    rw [Nat.div_eq_of_lt rm.isLt, Nat.zero_mod] at at21
    have width := wide_of_narrow amounts
    have add : ¬ w.toNat / 2 ^ 24 % 2 ^ 6 = 0b001011 := by
      clear * - at24
      omega
    have extended : ¬ w.toNat / 2 ^ 21 % 2 ^ 9 = 0b001011001 := by
      clear * - at21
      omega
    rw [decode_eq_register at26 at25, decodeRegister,
      if_neg (fun both => add (field_eq_iff.mp both.1)),
      if_neg (fun both => extended (field_eq_iff.mp both.1)),
      if_pos ⟨field_eq_iff.mpr at24, field_eq_iff.mpr at21,
        by rw [field_eq_iff, field_eq_iff, at31, at15]; exact width⟩, logicalShifted.injEq]
    exact ⟨flag_of_field at31, field_eq_iff.mpr at29, field_eq_iff.mpr at22, field_eq_iff.mpr at16,
      field_eq_iff.mpr at10, field_eq_iff.mpr at5, field_eq_iff.mpr at0⟩
  | br rn =>
    simp only [layout] at sum
    have digits : (br rn).encode.toNat / 2 ^ 0 =
        ((0 * 2 ^ 22 + 0b1101011000011111000000) * 2 ^ 5 + rn.toNat) * 2 ^ 5 + 0 := by
      omega
    generalize encode _ = w at *
    obtain ⟨at0, above5⟩ := digit 0 5 digits (by decide)
    obtain ⟨at5, above10⟩ := digit 5 5 above5 rn.isLt
    obtain ⟨at10, -⟩ := digit 10 22 above10 (by decide)
    have at24 := part 10 22 14 8 above10 (by decide)
    have at25 := part 10 22 15 6 above10 (by decide)
    have at26 := part 10 22 16 3 above10 (by decide)
    have group := part 10 22 16 5 above10 (by decide)
    rw [decode_eq_branch at26, decodeBranch, if_neg (by rw [field_eq_iff, group]; decide),
      if_neg (fun both => absurd (field_eq_iff.mp both.1) (by rw [at24]; decide)),
      if_neg (by rw [field_eq_iff, at25]; decide), if_neg (by rw [field_eq_iff, at25]; decide),
      if_pos ⟨field_eq_iff.mpr at10, field_eq_iff.mpr at0⟩, br.injEq]
    exact field_eq_iff.mpr at5
  | blr rn =>
    simp only [layout] at sum
    have digits : (blr rn).encode.toNat / 2 ^ 0 =
        ((0 * 2 ^ 22 + 0b1101011000111111000000) * 2 ^ 5 + rn.toNat) * 2 ^ 5 + 0 := by
      omega
    generalize encode _ = w at *
    obtain ⟨at0, above5⟩ := digit 0 5 digits (by decide)
    obtain ⟨at5, above10⟩ := digit 5 5 above5 rn.isLt
    obtain ⟨at10, -⟩ := digit 10 22 above10 (by decide)
    have at24 := part 10 22 14 8 above10 (by decide)
    have at25 := part 10 22 15 6 above10 (by decide)
    have at26 := part 10 22 16 3 above10 (by decide)
    have group := part 10 22 16 5 above10 (by decide)
    rw [decode_eq_branch at26, decodeBranch, if_neg (by rw [field_eq_iff, group]; decide),
      if_neg (fun both => absurd (field_eq_iff.mp both.1) (by rw [at24]; decide)),
      if_neg (by rw [field_eq_iff, at25]; decide), if_neg (by rw [field_eq_iff, at25]; decide),
      if_neg (fun both => absurd (field_eq_iff.mp both.1) (by rw [at10]; decide)),
      if_pos ⟨field_eq_iff.mpr at10, field_eq_iff.mpr at0⟩, blr.injEq]
    exact field_eq_iff.mpr at5
  | ret rn =>
    simp only [layout] at sum
    have digits : (ret rn).encode.toNat / 2 ^ 0 =
        ((0 * 2 ^ 22 + 0b1101011001011111000000) * 2 ^ 5 + rn.toNat) * 2 ^ 5 + 0 := by
      omega
    generalize encode _ = w at *
    obtain ⟨at0, above5⟩ := digit 0 5 digits (by decide)
    obtain ⟨at5, above10⟩ := digit 5 5 above5 rn.isLt
    obtain ⟨at10, -⟩ := digit 10 22 above10 (by decide)
    have at24 := part 10 22 14 8 above10 (by decide)
    have at25 := part 10 22 15 6 above10 (by decide)
    have at26 := part 10 22 16 3 above10 (by decide)
    have group := part 10 22 16 5 above10 (by decide)
    rw [decode_eq_branch at26, decodeBranch, if_neg (by rw [field_eq_iff, group]; decide),
      if_neg (fun both => absurd (field_eq_iff.mp both.1) (by rw [at24]; decide)),
      if_neg (by rw [field_eq_iff, at25]; decide), if_neg (by rw [field_eq_iff, at25]; decide),
      if_neg (fun both => absurd (field_eq_iff.mp both.1) (by rw [at10]; decide)),
      if_neg (fun both => absurd (field_eq_iff.mp both.1) (by rw [at10]; decide)),
      if_pos ⟨field_eq_iff.mpr at10, field_eq_iff.mpr at0⟩, ret.injEq]
    exact field_eq_iff.mpr at5
  | svc imm =>
    simp only [layout] at sum
    have digits : (svc imm).encode.toNat / 2 ^ 0 =
        ((0 * 2 ^ 11 + 0b11010100000) * 2 ^ 16 + imm.toNat) * 2 ^ 5 + 1 := by
      omega
    generalize encode _ = w at *
    obtain ⟨at0, above5⟩ := digit 0 5 digits (by decide)
    obtain ⟨at5, above21⟩ := digit 5 16 above5 imm.isLt
    obtain ⟨at21, -⟩ := digit 21 11 above21 (by decide)
    have at24 := part 21 11 3 8 above21 (by decide)
    have at25 := part 21 11 4 6 above21 (by decide)
    have at26 := part 21 11 5 3 above21 (by decide)
    have group := part 21 11 5 5 above21 (by decide)
    rw [decode_eq_branch at26, decodeBranch, if_neg (by rw [field_eq_iff, group]; decide),
      if_neg (fun both => absurd (field_eq_iff.mp both.1) (by rw [at24]; decide)),
      if_neg (by rw [field_eq_iff, at25]; decide), if_neg (by rw [field_eq_iff, at25]; decide),
      if_neg (fun both => absurd (field_eq_iff.mp both.2) (by rw [at0]; decide)),
      if_neg (fun both => absurd (field_eq_iff.mp both.2) (by rw [at0]; decide)),
      if_neg (fun both => absurd (field_eq_iff.mp both.2) (by rw [at0]; decide)),
      if_pos ⟨field_eq_iff.mpr at21, field_eq_iff.mpr at0⟩, svc.injEq]
    exact field_eq_iff.mpr at5
  | nop => decide

/-! ## The immediate group -/

/-- The instructions of the immediate group. -/
def InImmediateGroup : Instr → Prop
  | adr .. | adrp .. | addSubImm .. | moveWide .. => True
  | _ => False

theorem not_group_of_branch (word : Word) : ¬ InImmediateGroup (decodeBranch word) := by
  unfold decodeBranch
  split_ifs <;> exact id

theorem not_group_of_register (word : Word) : ¬ InImmediateGroup (decodeRegister word) := by
  unfold decodeRegister
  split_ifs <;> exact id

/-- An instruction of the group is decoded as one. -/
theorem decodeImmediate_of_group {word : Word} (group : InImmediateGroup (decode word)) :
    decodeImmediate word = decode word := by
  unfold decode at group ⊢
  split_ifs at group ⊢
  · rfl
  · exact absurd group (not_group_of_branch word)
  · exact absurd group (not_group_of_register word)
  · exact group.elim
  · exact group.elim

end Instr

end Hakkun.A64
