import Hakkun.Model.Hook.Assembler

/-! # Assembling instructions that are relative to the program counter

Translated from `IInstr::assemble` of `hk/hook/a64/Assembler.h` for `Adr`, `Adrp`, `Bcond`, `Cbz`,
`Cbnz`, `Tbz`, `Tbnz` and `LdrLiteral`, and from the decoders of `hk/hook/a64/Instrs.h` for the same
instructions. A signed value is its 64 bits.
-/

namespace Hakkun.Hook

/-- The types of `IInstrType` with an immediate that is an address. -/
inductive IInstrType where
  | Adr
  | Adrp
  | Bcond
  | Cbz
  | Cbnz
  | Tbz
  | Tbnz
  | LdrLiteral
  deriving DecidableEq

/-- The operands of an `IInstr` as they are resolved; one that it does not have is 0. -/
structure Operands where
  rd : U64 := 0
  rn : U64 := 0
  rm : U64 := 0
  imm : U64
  shiftImm : U64 := 0

def cOpAdr : U32 := 0b00010000
def cOpAdrp : U32 := 0b10010000
def cOpBcond : U32 := 0b01010100
def cOpCbz : U32 := 0b0110100
def cOpCbnz : U32 := 0b0110101
def cOpTbz : U32 := 0b0110110
def cOpTbnz : U32 := 0b0110111
def cOpLdrLiteral : U32 := 0b011000

def canBeImm21Neg : U64 → Bool := canBeImm true 21 1
def canBeImm19Neg : U64 → Bool := canBeImm true 19 1
def canBeImm14Neg : U64 → Bool := canBeImm true 14 1

/-- `(immV - base) / sizeof(Instr)`, where the base is the address of the instruction. -/
def instrDiff (addr immV : U64) : U64 :=
  let base := addr &&& ~~~bits 2
  (immV - base) / BitVec.ofNat 64 cInstrSize

/-- `assemble` for `Adr` and `Adrp`. -/
def assembleAdr (isAdrp : Bool) (rd : IRegType) (addr immV : U64) : Option Instr :=
  if isW rd then none
  else if isAdrp && !isAlignedPage immV then none
  else
    let base := if isAdrp then addr &&& ~~~bits 12 else addr
    let diff := immV - base
    let diffImm := if isAdrp then diff.sshiftRight 12 else diff
    if canBeImm21Neg diffImm then
      let immlo := diffImm &&& bits 2
      let immhi := (diffImm >>> 2) &&& bits 24
      some (InstrBuilder.mk 0
        |>.set 31 24 (if isAdrp then cOpAdrp else cOpAdr)
        |>.set 30 29 (immlo.setWidth 32)
        |>.set 23 5 (immhi.setWidth 32)
        |>.set 4 0 ((reg rd).setWidth 32)).mValue
    else none

/-- `assemble` for `Bcond`. -/
def assembleBcond (addr immV condV : U64) : Option Instr :=
  let diff := instrDiff addr immV
  if canBeImm19Neg diff then
    if condV ≤ bits 4 then
      some (InstrBuilder.mk 0
        |>.set 31 24 cOpBcond
        |>.set 23 5 (diff.setWidth 32)
        |>.set 4 4 0
        |>.set 3 0 (condV.setWidth 32)).mValue
    else none
  else none

/-- `assemble` for `Cbz` and `Cbnz`. -/
def assembleCbz (isCbz : Bool) (rd : IRegType) (addr immV : U64) : Option Instr :=
  let diff := instrDiff addr immV
  if canBeImm19Neg diff then
    some (InstrBuilder.mk 0
      |>.set 31 31 (if isX rd then 1 else 0)
      |>.set 30 24 (if isCbz then cOpCbz else cOpCbnz)
      |>.set 23 5 (diff.setWidth 32)
      |>.set 4 0 (rd.setWidth 32)).mValue
  else none

/-- `assemble` for `Tbz` and `Tbnz`; the index of the bit is a `u32`. -/
def assembleTbz (isTbz : Bool) (rd : IRegType) (addr immV shiftImm : U64) : Option Instr :=
  let diff := instrDiff addr immV
  if canBeImm14Neg diff then
    let shiftV : U32 := shiftImm.setWidth 32
    if shiftV ≤ 63 then
      some (InstrBuilder.mk 0
        |>.set 31 31 (if shiftV &&& 1#32 <<< 5 ≠ 0 then 1 else 0)
        |>.set 30 24 (if isTbz then cOpTbz else cOpTbnz)
        |>.set 23 19 (shiftV &&& (bits 5).setWidth 32)
        |>.set 18 5 ((diff.setWidth 16).setWidth 32)
        |>.set 4 0 (rd.setWidth 32)).mValue
    else none
  else none

/-- `assemble` for `LdrLiteral`. -/
def assembleLdrLiteral (rd : IRegType) (addr immV : U64) : Option Instr :=
  let diff := instrDiff addr immV
  if canBeImm19Neg diff then
    some (InstrBuilder.mk 0
      |>.set 31 30 (if isX rd then 1 else 0)
      |>.set 30 24 cOpLdrLiteral
      |>.set 23 5 (diff.setWidth 32)
      |>.set 4 0 (rd.setWidth 32)).mValue
  else none

/-- `assemble`. -/
def assemble (type : IInstrType) (operands : Operands) (addr : Ptr) : Option Instr :=
  if operands.rd < IRegType.max.setWidth 64 ∧ operands.rn < IRegType.max.setWidth 64 ∧
      operands.rm < IRegType.max.setWidth 64 then
    let rd : IRegType := operands.rd.setWidth 8
    let rd := if rd = IRegType.SP then IRegType.X31 else rd
    match type with
    | .Adr => assembleAdr false rd addr operands.imm
    | .Adrp => assembleAdr true rd addr operands.imm
    | .Bcond => assembleBcond addr operands.imm operands.shiftImm
    | .Cbz => assembleCbz true rd addr operands.imm
    | .Cbnz => assembleCbz false rd addr operands.imm
    | .Tbz => assembleTbz true rd addr operands.imm operands.shiftImm
    | .Tbnz => assembleTbz false rd addr operands.imm operands.shiftImm
    | .LdrLiteral => assembleLdrLiteral rd addr operands.imm
  else none

/-! ## Decoding -/

/-- `grabRd`. -/
def grabRd (instr : Instr) : IRegType := (grab instr 0 5).setWidth 8

/-- `grabBcondCond`. -/
def grabBcondCond (instr : Instr) : Ptr := (grab instr 0 4).setWidth 64

/-- `grabTbzTbnzBitIndex`. -/
def grabTbzTbnzBitIndex (instr : Instr) : BitVec 8 :=
  let lower : BitVec 8 := (grab instr 19 5).setWidth 8
  let upper : BitVec 8 := (instr >>> 31 &&& 1).setWidth 8
  (upper <<< 5) ||| lower

/-- The target of a field of instructions at bit 5. -/
def grabRelativeAddr (width : ℕ) (instr : Instr) (pc : Ptr) : Ptr :=
  let offset := signExtend (grab instr 5 width) width
  pc + offset.signExtend 64 * BitVec.ofNat 64 cInstrSize

/-- `grabBcondCbzCbnzLdrRelativeAddr` and `grabTbzTbnzAddr`. -/
def grabBcondCbzCbnzLdrRelativeAddr : Instr → Ptr → Ptr := grabRelativeAddr 19
def grabTbzTbnzAddr : Instr → Ptr → Ptr := grabRelativeAddr 14

end Hakkun.Hook
