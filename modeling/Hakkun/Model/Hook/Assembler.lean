import Hakkun.Model.Hook.Instrs

/-! # Assembling moves, additions and branches to a register

Translated from `IInstr::assemble` of `hk/hook/a64/Assembler.h` for `MovImm`, `Movk`, `AddImm`,
`SubImm`, `Br` and `Blr`, whose operands are resolved: registers, as the numbers that they have in
`IRegType`, and immediates. An instruction that is aborted has no word.
-/

namespace Hakkun.Hook

/-- `IRegType`. -/
abbrev IRegType := BitVec 8

namespace IRegType

def X31 : IRegType := 31
def W : IRegType := 32
def SP : IRegType := 64
def max : IRegType := 0xff &&& ~~~W

end IRegType

/-- `reg`. -/
def reg (r : IRegType) : BitVec 8 := r &&& 0b11111

/-- `isW` and `isX`. -/
def isW (r : IRegType) : Bool := r &&& IRegType.W != 0
def isX (r : IRegType) : Bool := !isW r

/-- `canBeImm`. -/
def canBeImm (neg : Bool) (width numShift : ℕ) (value : U64) : Bool :=
  isRepresentable width value numShift || (neg && isRepresentable width (~~~value) numShift)

def canBeImm16Shift4xNeg : U64 → Bool := canBeImm true 16 4

def cOpMovz : U32 := 0b10100101
def cOpMovn : U32 := 0b00100101

/-- The shift that `MovImm` chooses. -/
def movShift (immV : U64) : ℕ :=
  if immV > bits 48 then 48
  else if immV > bits 32 then 32
  else if immV > bits 16 then 16
  else 0

/-- `assemble` for `MovImm`; the registers that it does not have are 0. -/
def assembleMovImm (rdImm immV : U64) : Option Instr :=
  if rdImm < IRegType.max.setWidth 64 then
    let rd : IRegType := rdImm.setWidth 8
    let rd := if rd = IRegType.SP then IRegType.X31 else rd
    if canBeImm16Shift4xNeg immV then
      let invImmV := ~~~immV
      let useMovn := countSetBits immV > countSetBits invImmV
      let immV := if useMovn then invImmV else immV
      let hw := movShift immV
      some (InstrBuilder.mk 0
        |>.set 31 31 (if isX rd then 1 else 0)
        |>.set 30 23 (if useMovn then cOpMovn else cOpMovz)
        |>.set 22 21 (BitVec.ofNat 32 (hw / 16))
        |>.set 20 5 ((immV >>> hw &&& bits 16).setWidth 32)
        |>.set 4 0 ((reg rd).setWidth 32)).mValue
    else none
  else none

def canBeImm12Shift2x : U64 → Bool := canBeImm false 12 2

def cOpMovk : U32 := 0b11100101
def cOpAddImm : U32 := 0b00100010
def cOpSubImm : U32 := 0b10100010
def cOpBr : U32 := 0b1101011000011111000000
def cOpBlr : U32 := 0b1101011000111111000000

/-- A register of an operand; `SP` is encoded as number 31. -/
def operandRegister (imm : U64) : Option IRegType :=
  if imm < IRegType.max.setWidth 64 then
    let r : IRegType := imm.setWidth 8
    some (if r = IRegType.SP then IRegType.X31 else r)
  else none

/-- `assemble` for `Movk`. -/
def assembleMovk (rdImm immV hw : U64) : Option Instr :=
  (operandRegister rdImm).bind fun rd =>
    if canBeImm16Shift4xNeg immV then
      if hw = 0 ∨ hw = 16 ∨ hw = 32 ∨ hw = 48 then
        some (InstrBuilder.mk 0
          |>.set 31 31 (if isX rd then 1 else 0)
          |>.set 30 23 cOpMovk
          |>.set 22 21 ((hw / 16).setWidth 32)
          |>.set 20 5 (immV.setWidth 32)
          |>.set 4 0 ((reg rd).setWidth 32)).mValue
      else none
    else none

/-- `assemble` for `AddImm` and `SubImm`; the immediate is a `u32`. -/
def assembleAddImm (isAdd : Bool) (rdImm rnImm imm : U64) : Option Instr :=
  (operandRegister rdImm).bind fun rd => (operandRegister rnImm).bind fun rn =>
    let immV : U32 := imm.setWidth 32
    if canBeImm12Shift2x (immV.setWidth 64) then
      let shifted : Bool := immV.setWidth 64 > bits 12
      some (InstrBuilder.mk 0
        |>.set 31 31 (if isX rd then 1 else 0)
        |>.set 30 23 (if isAdd then cOpAddImm else cOpSubImm)
        |>.set 22 22 (if shifted then 1 else 0)
        |>.set 21 10 (immV >>> (if shifted then 12 else 0))
        |>.set 9 5 ((reg rn).setWidth 32)
        |>.set 4 0 ((reg rd).setWidth 32)).mValue
    else none

/-- `assemble` for `Br` and `Blr`, by the operation. -/
def assembleBr (op : U32) (rnImm : U64) : Option Instr :=
  (operandRegister rnImm).bind fun rn =>
    if isW rn then none
    else
      some (InstrBuilder.mk 0
        |>.set 31 10 op
        |>.set 9 5 ((reg rn).setWidth 32)
        |>.set 4 0 0).mValue

end Hakkun.Hook
