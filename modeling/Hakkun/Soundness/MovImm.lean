import Hakkun.Machine.A64.MoveWide
import Hakkun.Model.Hook.Assembler
import Mathlib.Algebra.BigOperators.Group.Finset.Basic
import Mathlib.Algebra.BigOperators.Intervals
import Mathlib.Algebra.Order.BigOperators.Group.Finset
import Mathlib.Tactic.IntervalCases

/-! # Moves of immediates

Acceptance, the choice between `MOVZ` and `MOVN` and the choice of the shift all look at 64 bits. For
an X register they agree with each other and with the processor. For a W register an immediate is
accepted whose shift a 32-bit move does not have, and one that only its low half makes movable is
refused.
-/

namespace Hakkun.Hook

open A64

/-! ## Shifted 16-bit values -/

/-- A 16-bit value, shifted by less than `shifts` times 16. -/
def Chunk (shifts value : ℕ) : Prop := ∃ i < shifts, ∃ c < 2 ^ 16, value = c * 2 ^ (16 * i)

theorem Chunk.mono {first second value : ℕ} (le : first ≤ second) (chunk : Chunk first value) :
    Chunk second value := by
  obtain ⟨i, below, c, small, same⟩ := chunk
  exact ⟨i, Nat.lt_of_lt_of_le below le, c, small, same⟩

theorem chunk_iff_mask (value : U64) {i : ℕ} (small : i < 4) :
    value &&& (bits 16 <<< (i * 16)) = value ↔ ∃ c < 2 ^ 16, value.toNat = c * 2 ^ (16 * i) := by
  have mask : (bits 16 <<< (i * 16)).toNat = (2 ^ 16 - 1) * 2 ^ (16 * i) := by
    interval_cases i <;> rfl
  rw [← BitVec.toNat_inj, BitVec.toNat_and, mask, Math.and_shifted_mask]
  constructor
  · intro same
    exact ⟨_, Nat.mod_lt _ (by decide), same.symm⟩
  · rintro ⟨c, bound, same⟩
    rw [same, Nat.mul_div_cancel _ (Nat.two_pow_pos _), Nat.mod_eq_of_lt bound]

theorem isRepresentable_iff (value : U64) :
    isRepresentable 16 value 4 = true ↔ Chunk 4 value.toNat := by
  simp only [isRepresentable, List.any_eq_true, List.mem_range, beq_iff_eq, Chunk]
  apply exists_congr
  intro i
  exact and_congr_right fun small => chunk_iff_mask value small

/-- What `assemble` accepts. -/
def Accepted (imm : U64) : Prop := Chunk 4 imm.toNat ∨ Chunk 4 (~~~imm).toNat

theorem canBeImm16Shift4xNeg_iff (imm : U64) : canBeImm16Shift4xNeg imm = true ↔ Accepted imm := by
  rw [canBeImm16Shift4xNeg, canBeImm, Bool.true_and, Bool.or_eq_true, isRepresentable_iff,
    isRepresentable_iff]
  rfl

/-! ## Counting bits -/

theorem countSetBits_go_eq (fuel : ℕ) (value : U64) :
    countSetBits.go fuel value = ∑ i ∈ Finset.range fuel, (value.getLsbD i).toNat := by
  induction fuel generalizing value with
  | zero => rfl
  | succ fuel ih =>
    rw [countSetBits.go, Finset.sum_range_succ']
    split
    · rename_i zero
      subst zero
      simp only [BitVec.ofNat_eq_ofNat, BitVec.getLsbD_zero, Bool.toNat_false,
        Finset.sum_const_zero, Nat.add_zero]
    · have low : (value &&& 1).toNat = (value.getLsbD 0).toNat := by
        rw [BitVec.toNat_and, show (1 : U64).toNat = 2 ^ 1 - 1 from rfl,
          Nat.and_two_pow_sub_one_eq_mod, BitVec.getLsbD, Nat.testBit_zero]
        rcases Nat.mod_two_eq_zero_or_one value.toNat with even | odd
        · rw [Nat.pow_one, even]
          rfl
        · rw [Nat.pow_one, odd]
          rfl
      rw [ih, low, Nat.add_comm]
      congr 1
      apply Finset.sum_congr rfl
      intro i _
      rw [BitVec.getLsbD_ushiftRight, Nat.add_comm]

theorem countSetBits_eq (value : U64) :
    countSetBits value = ∑ i ∈ Finset.range 64, (value.getLsbD i).toNat := countSetBits_go_eq 64 value

theorem countSetBits_not (value : U64) : countSetBits value + countSetBits (~~~value) = 64 := by
  rw [countSetBits_eq, countSetBits_eq, ← Finset.sum_add_distrib]
  have each : ∀ i ∈ Finset.range 64,
      (value.getLsbD i).toNat + ((~~~value).getLsbD i).toNat = 1 := by
    intro i member
    rw [BitVec.getLsbD_not, decide_eq_true (Finset.mem_range.mp member), Bool.true_and]
    cases value.getLsbD i <;> rfl
  rw [Finset.sum_congr rfl each]
  rfl

/-- A shifted 16-bit value has at most 16 bits. -/
theorem countSetBits_le {value : U64} (chunk : Chunk 4 value.toNat) : countSetBits value ≤ 16 := by
  obtain ⟨i, small, c, bound, same⟩ := chunk
  have inside : ∀ j ∈ Finset.range 64,
      (value.getLsbD j).toNat ≤ if 16 * i ≤ j ∧ j < 16 * i + 16 then 1 else 0 := by
    intro j _
    split
    · exact Bool.toNat_le _
    · rename_i outside
      have clear : value.getLsbD j = false := by
        rw [BitVec.getLsbD, same, Nat.testBit_mul_two_pow]
        rcases Nat.lt_or_ge j (16 * i) with below | above
        · rw [decide_eq_false (Nat.not_le.mpr below), Bool.false_and]
        · have power : 2 ^ 16 ≤ 2 ^ (j - 16 * i) := Nat.pow_le_pow_right (by decide) (by omega)
          rw [Nat.testBit_lt_two_pow (Nat.lt_of_lt_of_le bound power), Bool.and_false]
      rw [clear]
      exact le_rfl
  rw [countSetBits_eq]
  apply (Finset.sum_le_sum inside).trans
  interval_cases i <;> decide

/-- The choice between an immediate and its complement finds the one that is a shifted value. -/
theorem chosen_of_chunk {imm : U64} (chunk : Chunk 4 imm.toNat) :
    ¬ countSetBits imm > countSetBits (~~~imm) := by
  have few := countSetBits_le chunk
  have total := countSetBits_not imm
  omega

theorem chosen_of_chunk_not {imm : U64} (chunk : Chunk 4 (~~~imm).toNat) :
    countSetBits imm > countSetBits (~~~imm) := by
  have few := countSetBits_le chunk
  have total := countSetBits_not imm
  omega

/-! ## The shift and the word -/

/-- The shift of a shifted value is one of the four, no larger than it has to be, and leaves the
16 bits. -/
theorem movShift_of_chunk {value : U64} (chunk : Chunk 4 value.toNat) :
    ∃ hw : BitVec 2, movShift value = 16 * hw.toNat ∧
      value.toNat / 2 ^ movShift value < 2 ^ 16 ∧
      value.toNat = value.toNat / 2 ^ movShift value * 2 ^ movShift value ∧
      (value.toNat < 2 ^ 32 → hw.toNat < 2) := by
  obtain ⟨i, small, c, bound, same⟩ := chunk
  have above (n : ℕ) (le : n ≤ 48) : value > bits n ↔ 2 ^ n ≤ value.toNat := by
    rw [gt_iff_lt, BitVec.lt_def, bits_toNat (by omega)]
    have := Nat.two_pow_pos n
    omega
  rw [movShift]
  simp only [above 48 le_rfl, above 32 (by decide), above 16 (by decide)]
  clear above
  generalize value.toNat = n at *
  have cases : i = 0 ∨ i = 1 ∨ i = 2 ∨ i = 3 := by omega
  have exact_ : n / 2 ^ (16 * i) = c := by rw [same, Nat.mul_div_cancel _ (Nat.two_pow_pos _)]
  split_ifs with high middle low
  · obtain rfl : i = 3 := by rcases cases with rfl | rfl | rfl | rfl <;> omega
    refine ⟨3, rfl, ?_, ?_, fun narrow => absurd high (by omega)⟩ <;> rw [exact_] <;> assumption
  · obtain rfl : i = 2 := by rcases cases with rfl | rfl | rfl | rfl <;> omega
    refine ⟨2, rfl, ?_, ?_, fun narrow => absurd middle (by omega)⟩ <;> rw [exact_] <;> assumption
  · obtain rfl : i = 1 := by rcases cases with rfl | rfl | rfl | rfl <;> omega
    refine ⟨1, rfl, ?_, ?_, fun _ => by decide⟩ <;> rw [exact_] <;> assumption
  · refine ⟨0, rfl, ?_, ?_, fun _ => by decide⟩ <;> omega

/-- The register field of an operand. -/
def field (r : IRegType) : RegField := (reg r).setWidth 5

theorem reg_toNat (r : IRegType) : (reg r).toNat = r.toNat % 32 := by
  rw [reg, BitVec.toNat_and, show (0b11111 : BitVec 8).toNat = 2 ^ 5 - 1 from rfl,
    Nat.and_two_pow_sub_one_eq_mod]

/-- The word that is built for a move, by its operation. -/
theorem moveWide_word (r : IRegType) {op : U32} {opc : BitVec 2}
    (kind : op.toNat = opc.toNat * 2 ^ 6 + 0b100101) (hw : BitVec 2) (imm : BitVec 16) :
    (InstrBuilder.mk 0
      |>.set 31 31 (if isX r then 1 else 0)
      |>.set 30 23 op
      |>.set 22 21 (hw.setWidth 32)
      |>.set 20 5 (imm.setWidth 32)
      |>.set 4 0 ((reg r).setWidth 32)).mValue =
      (Instr.moveWide (isX r) opc hw imm (field r)).encode := by
  have sf : ((if isX r then 1 else 0 : U32)).toNat = (isX r).toNat := by
    cases isX r <;> rfl
  have sfBound := (isX r).toNat_lt
  have opBound := opc.isLt
  have hwBound := hw.isLt
  have immBound := imm.isLt
  have register : ((reg r).setWidth 32).toNat = (field r).toNat := by
    rw [field, BitVec.toNat_setWidth, BitVec.toNat_setWidth, reg_toNat]
    omega
  have registerBound := (field r).isLt
  have hwWide : (hw.setWidth 32).toNat = hw.toNat := by
    rw [BitVec.toNat_setWidth]
    omega
  have immWide : (imm.setWidth 32).toNat = imm.toNat := by
    rw [BitVec.toNat_setWidth]
    omega
  have start : (InstrBuilder.mk 0).mValue.toNat = 0 := rfl
  have first := InstrBuilder.set_toNat 1 (if isX r then 1 else 0) start
    (show 31 + 1 = 31 + 1 from rfl) (by decide) (by decide) (by decide)
  rw [sf] at first
  have second := InstrBuilder.set_toNat 8 op first
    (show 30 + 1 = 23 + 8 from rfl) (by decide) (by decide) (by omega)
  rw [kind] at second
  have third := InstrBuilder.set_toNat 2 (hw.setWidth 32) second
    (show 22 + 1 = 21 + 2 from rfl) (by decide) (by decide) (by omega)
  rw [hwWide] at third
  have fourth := InstrBuilder.set_toNat 16 (imm.setWidth 32) third
    (show 20 + 1 = 5 + 16 from rfl) (by decide) (by decide) (by omega)
  rw [immWide] at fourth
  have fifth := InstrBuilder.set_toNat 5 ((reg r).setWidth 32) fourth
    (show 4 + 1 = 0 + 5 from rfl) (by decide) (by decide) (by omega)
  rw [register] at fifth
  rw [← BitVec.toNat_inj, fifth, Instr.encode_toNat, Instr.layout]
  omega

/-- The operation of a `MOVN` or a `MOVZ`. -/
theorem movOp_toNat (movn : Bool) :
    ((if movn then cOpMovn else cOpMovz : U32)).toNat =
      (if movn then Instr.movn else Instr.movz : BitVec 2).toNat * 2 ^ 6 + 0b100101 := by
  cases movn <;> rfl

/-- The value that is encoded: the immediate or its complement. -/
def chosen (imm : U64) : U64 :=
  if countSetBits imm > countSetBits (~~~imm) then ~~~imm else imm

theorem chunk_chosen {imm : U64} (accepted : Accepted imm) : Chunk 4 (chosen imm).toNat := by
  rw [chosen]
  rcases accepted with chunk | chunk
  · rwa [if_neg (chosen_of_chunk chunk)]
  · rwa [if_pos (chosen_of_chunk_not chunk)]

/-- What is assembled for an accepted immediate. -/
theorem assembled {r : IRegType} (register : r.toNat < 64) {imm : U64} (accepted : Accepted imm) :
    ∃ (hw : BitVec 2) (imm16 : BitVec 16),
      assembleMovImm (r.setWidth 64) imm = some (Instr.moveWide (isX r)
        (if countSetBits imm > countSetBits (~~~imm) then Instr.movn else Instr.movz) hw imm16
        (field r)).encode ∧
      chosen imm = imm16.setWidth 64 <<< (16 * hw.toNat) ∧
      ((chosen imm).toNat < 2 ^ 32 → hw.toNat < 2) := by
  obtain ⟨hw, shift, small, whole, narrow⟩ := movShift_of_chunk (chunk_chosen accepted)
  have inRange : r.setWidth 64 < IRegType.max.setWidth 64 := by
    rw [BitVec.lt_def, BitVec.toNat_setWidth, show (IRegType.max.setWidth 64 : U64).toNat = 223 from
      rfl]
    omega
  have operand : (r.setWidth 64).setWidth 8 = r := by
    rw [← BitVec.toNat_inj, BitVec.toNat_setWidth, BitVec.toNat_setWidth]
    omega
  have general : ¬ r = IRegType.SP := by
    rintro rfl
    exact absurd register (by decide)
  have low : (chosen imm >>> movShift (chosen imm) &&& bits 16).toNat =
      (chosen imm).toNat / 2 ^ movShift (chosen imm) := by
    rw [and_bits_toNat _ (by decide), BitVec.toNat_ushiftRight, Nat.shiftRight_eq_div_pow,
      Nat.mod_eq_of_lt small]
  refine ⟨hw, (chosen imm >>> movShift (chosen imm) &&& bits 16).setWidth 16, ?_, ?_, narrow⟩
  · have word := moveWide_word r
      (movOp_toNat (decide (countSetBits imm > countSetBits (~~~imm)))) hw
      ((chosen imm >>> movShift (chosen imm) &&& bits 16).setWidth 16)
    simp only [decide_eq_true_eq] at word
    have half : ((chosen imm >>> movShift (chosen imm) &&& bits 16).setWidth 16).setWidth 32 =
        (chosen imm >>> movShift (chosen imm) &&& bits 16).setWidth 32 := by
      rw [← BitVec.toNat_inj, BitVec.toNat_setWidth, BitVec.toNat_setWidth, BitVec.toNat_setWidth,
        low]
      omega
    have quarter : BitVec.ofNat 32 (movShift (chosen imm) / 16) = hw.setWidth 32 := by
      rw [shift, Nat.mul_div_cancel_left _ (by decide), BitVec.ofNat_toNat]
    rw [← word, assembleMovImm, if_pos inRange]
    simp only [operand, if_neg general, (canBeImm16Shift4xNeg_iff imm).mpr accepted, if_true, half]
    rw [← quarter]
    rfl
  · rw [← BitVec.toNat_inj, BitVec.toNat_shiftLeft, Nat.shiftLeft_eq, BitVec.toNat_setWidth,
      BitVec.toNat_setWidth, low, Nat.mod_eq_of_lt small,
      Nat.mod_eq_of_lt (Nat.lt_trans small (by decide)), ← shift, ← whole,
      Nat.mod_eq_of_lt (chosen imm).isLt]

/-- Every other immediate is refused. -/
theorem not_assembled {r : IRegType} {imm : U64} (refused : ¬ Accepted imm) :
    assembleMovImm (r.setWidth 64) imm = none := by
  have check : ¬ canBeImm16Shift4xNeg imm = true := (canBeImm16Shift4xNeg_iff imm).not.mpr refused
  unfold assembleMovImm
  rw [if_neg check, ite_self]

/-! ## What the processor does -/

/-- A single `MOVZ` or `MOVN` of the width of a register makes the immediate. -/
def Producible (r : IRegType) (imm : U64) : Prop :=
  if isX r then Chunk 4 imm.toNat ∨ Chunk 4 (~~~imm).toNat
  else Chunk 2 (imm.setWidth 32).toNat ∨ Chunk 2 (~~~(imm.setWidth 32)).toNat

/-- The immediate in a register of its width. -/
def inWidth (r : IRegType) (imm : U64) : U64 :=
  if isX r then imm else (imm.setWidth 32).setWidth 64

/-- What can be produced is accepted and nothing else, and the word that is emitted leaves the
immediate in the register. -/
def Moves (r : IRegType) (imm : U64) : Prop :=
  ((assembleMovImm (r.setWidth 64) imm).isSome = true ↔ Producible r imm) ∧
    ∀ word, assembleMovImm (r.setWidth 64) imm = some word → ∀ registers : Registers,
      ∃ after, executeMoveWide registers (Instr.decode word) = some after ∧
        after.read (field r) = inWidth r imm

/-- If the immediate can be produced, then for a W register already in 64 bits and without a shift
by 32 or 48, and only zero for the zero register. -/
def Movable (r : IRegType) (imm : U64) : Prop :=
  Producible r imm →
    (isX r = false → Chunk 2 imm.toNat ∨ Chunk 2 (~~~imm).toNat) ∧
      (field r = 31 → inWidth r imm = 0)

/-- The execution of a word that is assembled without a shift that the width does not have. -/
theorem execute_assembled (r : IRegType) {imm : U64} {hw : BitVec 2} {imm16 : BitVec 16}
    (value : chosen imm = imm16.setWidth 64 <<< (16 * hw.toNat))
    (narrow : isX r = false → hw.toNat < 2) (registers : Registers) :
    executeMoveWide registers (Instr.decode (Instr.moveWide (isX r)
        (if countSetBits imm > countSetBits (~~~imm) then Instr.movn else Instr.movz) hw imm16
        (field r)).encode) = some (registers.write (field r) (inWidth r imm)) := by
  have wellFormed : (Instr.moveWide (isX r)
      (if countSetBits imm > countSetBits (~~~imm) then Instr.movn else Instr.movz) hw imm16
      (field r)).WellFormed := by
    constructor
    · split <;> decide
    · intro word
      apply narrow
      cases wide : isX r with
      | false => rfl
      | true =>
        rw [wide] at word
        cases word
  have moved : moveWideValue
      (if countSetBits imm > countSetBits (~~~imm) then Instr.movn else Instr.movz) hw imm16 =
        some imm := by
    rw [moveWideValue, ← value, chosen]
    split
    · rw [BitVec.not_not]
      rfl
    · rfl
  rw [Instr.decode_encode _ wellFormed, executeMoveWide, moved, Option.map_some, inWidth]

theorem chunk_low {value : ℕ} (chunk : Chunk 4 value) : Chunk 2 (value % 2 ^ 32) := by
  obtain ⟨i, small, c, bound, rfl⟩ := chunk
  rcases (show i = 0 ∨ i = 1 ∨ i = 2 ∨ i = 3 by omega) with rfl | rfl | rfl | rfl
  · exact ⟨0, by decide, c, bound, by omega⟩
  · exact ⟨1, by decide, c, bound, by omega⟩
  · exact ⟨0, by decide, 0, by decide, by omega⟩
  · exact ⟨0, by decide, 0, by decide, by omega⟩

theorem chunk_lt {value : ℕ} (chunk : Chunk 2 value) : value < 2 ^ 32 := by
  obtain ⟨i, small, c, bound, rfl⟩ := chunk
  rcases (show i = 0 ∨ i = 1 by omega) with rfl | rfl <;> omega

/-- Nothing is accepted that cannot be produced. -/
theorem producible_of_accepted (r : IRegType) {imm : U64} (accepted : Accepted imm) :
    Producible r imm := by
  rw [Producible]
  split
  · exact accepted
  · apply accepted.imp
    · intro chunk
      rw [BitVec.toNat_setWidth]
      exact chunk_low chunk
    · intro chunk
      rw [← BitVec.setWidth_not (by decide), BitVec.toNat_setWidth]
      exact chunk_low chunk

/-- A shifted value of 32 bits is encoded without a shift that a W register does not have. -/
theorem chosen_lt {imm : U64} (chunk : Chunk 2 imm.toNat ∨ Chunk 2 (~~~imm).toNat) :
    (chosen imm).toNat < 2 ^ 32 := by
  rw [chosen]
  rcases chunk with chunk | chunk
  · rw [if_neg (chosen_of_chunk (chunk.mono (by decide)))]
    exact chunk_lt chunk
  · rw [if_pos (chosen_of_chunk_not (chunk.mono (by decide)))]
    exact chunk_lt chunk

theorem chunk_of_narrow {imm : U64} {hw : BitVec 2} {imm16 : BitVec 16}
    (value : chosen imm = imm16.setWidth 64 <<< (16 * hw.toNat)) (narrow : hw.toNat < 2) :
    Chunk 2 imm.toNat ∨ Chunk 2 (~~~imm).toNat := by
  have chunk : Chunk 2 (chosen imm).toNat := by
    refine ⟨hw.toNat, narrow, imm16.toNat, imm16.isLt, ?_⟩
    have bound := imm16.isLt
    rw [value, BitVec.toNat_shiftLeft, Nat.shiftLeft_eq, BitVec.toNat_setWidth,
      Nat.mod_eq_of_lt (Nat.lt_trans bound (by decide)), Nat.mod_eq_of_lt]
    rcases (show hw.toNat = 0 ∨ hw.toNat = 1 by omega) with zero | one
    · rw [zero]
      omega
    · rw [one]
      omega
  rw [chosen] at chunk
  split at chunk
  · exact .inr chunk
  · exact .inl chunk

/-- A move is assembled as it should be exactly for the movable immediates. -/
theorem moves_iff_movable {r : IRegType} (register : r.toNat < 64) (imm : U64) :
    Moves r imm ↔ Movable r imm := by
  rcases Classical.em (Accepted imm) with accepted | refused
  · obtain ⟨hw, imm16, word, value, narrow⟩ := assembled register accepted
    have producible := producible_of_accepted r accepted
    rw [Moves, Movable, word]
    constructor
    · rintro ⟨-, leaves⟩ -
      have left := leaves _ rfl
      have shift : isX r = false → hw.toNat < 2 := by
        intro half
        by_contra large
        obtain ⟨after, ran, -⟩ := left fun _ => 0
        rw [half, executeMoveWide_of_shift _ _ _ _ (by omega)] at ran
        cases ran
      constructor
      · intro half
        exact chunk_of_narrow value (shift half)
      · intro zero
        obtain ⟨after, ran, held⟩ := left fun _ => 0
        rw [execute_assembled r value shift] at ran
        obtain rfl := Option.some.inj ran
        rw [Registers.read_write, if_pos zero] at held
        exact held.symm
    · intro movable
      obtain ⟨half, zero⟩ := movable producible
      refine ⟨iff_of_true rfl producible, fun _ emitted registers => ?_⟩
      obtain rfl := Option.some.inj emitted
      refine ⟨_, execute_assembled r value (fun w => narrow (chosen_lt (half w))) registers, ?_⟩
      rw [Registers.read_write]
      split
      · rename_i isZero
        exact (zero isZero).symm
      · rfl
  · rw [Moves, Movable, not_assembled refused]
    constructor
    · rintro ⟨same, -⟩ producible
      cases same.mpr producible
    · intro movable
      refine ⟨iff_of_false Bool.false_ne_true fun producible => refused ?_, fun _ absurd => by
        cases absurd⟩
      rw [Producible] at producible
      split at producible
      · exact producible
      · rename_i half
        exact ((movable (by rwa [Producible, if_neg half])).1 (Bool.eq_false_iff.mpr half)).imp
          (Chunk.mono (by decide)) (Chunk.mono (by decide))

/-- `mov x0, #0x12340000`, which is `MOVZ` with a shift of 16. -/
theorem moves_x0 : Moves 0 0x12340000 := by
  apply (moves_iff_movable (show (0 : IRegType).toNat < 64 by decide) _).mpr
  intro _
  constructor
  · intro half
    exact absurd half (by decide)
  · intro zero
    exact absurd zero (by decide)

/-- `mov w0, #0xffffffff` is refused, and `mov w0, #0x100000000` has a shift that there is not. -/
theorem not_moves_w0 : ¬ Moves 32 0xffffffff ∧ ¬ Moves 32 0x100000000 := by
  constructor
  · rintro ⟨same, -⟩
    have producible : Producible 32 0xffffffff := .inr ⟨0, by decide, 0, by decide, rfl⟩
    exact absurd (same.mpr producible) (by decide)
  · rintro ⟨-, leaves⟩
    obtain ⟨after, ran, -⟩ := leaves 0x52c00020 (by decide) fun _ => 0
    cases ran

end Hakkun.Hook
