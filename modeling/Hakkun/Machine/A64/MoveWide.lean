import Hakkun.Machine.A64.Instr

/-! # Moves of wide immediates

`MOVZ` and `MOVN` set a register to a shifted 16-bit immediate or to its complement. The writes of
the 32-bit forms clear the upper half of the register.
-/

namespace Hakkun.A64

/-- The general registers; number 31 is the zero register. -/
abbrev Registers := RegField → BitVec 64

namespace Registers

def read (registers : Registers) (r : RegField) : BitVec 64 := if r = 31 then 0 else registers r

def write (registers : Registers) (r : RegField) (value : BitVec 64) : Registers := fun q =>
  if q = r then value else registers q

theorem read_write (registers : Registers) (r : RegField) (value : BitVec 64) :
    (registers.write r value).read r = if r = 31 then 0 else value := by
  rw [read, write, if_pos rfl]

theorem write_write (registers : Registers) (r : RegField) (first second : BitVec 64) :
    (registers.write r first).write r second = registers.write r second := by
  funext q
  simp only [write]
  split <;> rfl

theorem write_self (registers : Registers) (r : RegField) :
    registers.write r (registers r) = registers := by
  funext q
  simp only [write]
  split
  · rename_i same
    rw [same]
  · rfl

@[simp] theorem write_same (registers : Registers) (r : RegField) (value : BitVec 64) :
    registers.write r value r = value := if_pos rfl

theorem read_of_ne (registers : Registers) {r : RegField} (general : r ≠ 31) :
    registers.read r = registers r := if_neg general

end Registers

/-- What is moved, before the write. -/
def moveWideValue (opc hw : BitVec 2) (imm : BitVec 16) : Option (BitVec 64) :=
  let shifted : BitVec 64 := imm.setWidth 64 <<< (16 * hw.toNat)
  if opc = Instr.movz then some shifted
  else if opc = Instr.movn then some (~~~shifted)
  else none

/-- The execution of a `MOVZ` or a `MOVN`; other instructions have no result here. -/
def executeMoveWide (registers : Registers) : Instr → Option Registers
  | .moveWide sf opc hw imm rd =>
    (moveWideValue opc hw imm).map fun value =>
      registers.write rd (if sf then value else (value.setWidth 32).setWidth 64)
  | _ => none

/-- The 32-bit forms have no shift by 32 or 48. -/
theorem Instr.fields_of_moveWide {word : Word} {sf : Bool} {opc hw : BitVec 2} {imm : BitVec 16}
    {rd : RegField} (decoded : decode word = .moveWide sf opc hw imm rd) :
    sf = decide (word.extractLsb' 31 1 = 1) ∧ (sf = true ∨ word.extractLsb' 22 1 = 0) := by
  have immediate : decodeImmediate word = .moveWide sf opc hw imm rd := by
    rw [← decoded]
    apply decodeImmediate_of_group
    rw [decoded]
    trivial
  unfold decodeImmediate at immediate
  split_ifs at immediate with kind page add wide
  all_goals cases immediate
  exact ⟨rfl, wide.2.2.imp_left decide_eq_true⟩

/-- The word of a 32-bit form with such a shift is no move. -/
theorem executeMoveWide_of_shift (registers : Registers) (opc : BitVec 2) {hw : BitVec 2}
    (imm : BitVec 16) (rd : RegField) (large : 2 ≤ hw.toNat) :
    executeMoveWide registers (Instr.decode (Instr.moveWide false opc hw imm rd).encode) = none := by
  have sum := Instr.encode_toNat (Instr.moveWide false opc hw imm rd)
  simp only [Instr.layout, Bool.toNat_false] at sum
  generalize (Instr.moveWide false opc hw imm rd).encode = word at *
  have narrow : ¬ word.extractLsb' 31 1 = 1 := by
    simp only [← BitVec.toNat_inj, Math.toNat_field, BitVec.reduceToNat]
    omega
  have shifted : ¬ word.extractLsb' 22 1 = 0 := by
    simp only [← BitVec.toNat_inj, Math.toNat_field, BitVec.reduceToNat]
    omega
  cases decoded : Instr.decode word with
  | moveWide =>
    obtain ⟨rfl, wide | low⟩ := Instr.fields_of_moveWide decoded
    · exact absurd (of_decide_eq_true wide) narrow
    · exact absurd low shifted
  | _ => rfl

end Hakkun.A64
