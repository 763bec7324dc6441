import Hakkun.Model.Hook.InstrUtil
import Hakkun.Model.Hook.PcRelative

/-! # Emitting sequences of instructions

Translated from `PseudoInstructionEmitter` of `hk/hook/a64/Assembler.h`. The instructions go to a
`VecSpan<Instr>`, whose buffer keeps its length when the capacity is changed; `none` is an abort. A
negation wraps.
-/

namespace Hakkun.Hook

/-- `VecSpan<Instr>`. -/
structure VecSpan where
  mData : List Instr
  mSize : ℕ := 0
  mCapacity : ℕ
  deriving DecidableEq

/-- `add`. -/
def VecSpan.add (out : VecSpan) (instr : Instr) : Option VecSpan :=
  if out.mSize < out.mCapacity then
    some { out with mData := out.mData.set out.mSize instr, mSize := out.mSize + 1 }
  else none

/-- A buffer after words that are written past its end. -/
def VecSpan.append (out : VecSpan) (words : List Instr) : VecSpan :=
  { mData := out.mData.take out.mSize ++ words ++ out.mData.drop (out.mSize + words.length)
    mSize := out.mSize + words.length
    mCapacity := out.mCapacity }

/-- `append`. -/
def VecSpan.appendSpan (out : VecSpan) (instrs : List Instr) : Option VecSpan :=
  if out.mSize + instrs.length ≤ out.mCapacity then some (out.append instrs) else none

/-- `abs`. -/
def abs (value : U64) : U64 := if value.slt 0 then -value else value

def cMaxBranchDistance : U64 := bit 26 * BitVec.ofNat 64 cInstrSize / 2 - 1
def adrAdrpMaxDiff : U64 := bit 21 / 2 - 1

def IP0 : IRegType := 16

/-- The `br ip` and the `blr ip` of `emitBranch`. -/
def cBr : Instr := (assembleBr cOpBr (IP0.setWidth 64)).getD 0
def cBlr : Instr := (assembleBr cOpBlr (IP0.setWidth 64)).getD 0

example : cBr = 0xd61f0200 ∧ cBlr = 0xd63f0200 := by decide

section

variable (canUseInstrAsData : Bool) (mRx : Ptr) (mOut : VecSpan)

/-- `calcCurRxAddr`. -/
def calcCurRxAddr : Ptr := mRx + BitVec.ofNat 64 (cInstrSize * mOut.mSize)

/-- `emit` of an instruction that is assembled. -/
def emit (instr : Option Instr) : Option VecSpan := instr.bind mOut.add

/-- A 16-bit part of an immediate. -/
def part16 (value : U64) (i : ℕ) : U64 := (value >>> (16 * i)) &&& bits 16

/-- The `movk` of each part that does not match. -/
def emitMovk (rd value pc : U64) : Option VecSpan :=
  (List.range 4).foldlM (fun mOut i =>
    if part16 value i = part16 pc i then some mOut
    else emit mOut (assembleMovk rd (part16 value i) (BitVec.ofNat 64 (i * 16)))) mOut

/-- `emitMovImmediate64`, with the number of instructions that it returns. -/
def emitMovImmediate64 (reg : IRegType) (value : U64) : Option (ℕ × VecSpan) :=
  let pc := calcCurRxAddr mRx mOut
  let pcUpper := pc &&& ~~~bits 12
  let upper := value &&& ~~~bits 12
  let lower := value &&& bits 12
  let rd : U64 := reg.setWidth 64
  if abs (pc - value) ≤ adrAdrpMaxDiff then
    (emit mOut (assemble .Adr { rd := rd, imm := value } pc)).map (1, ·)
  else if abs (pcUpper - upper) / cPageSize ≤ adrAdrpMaxDiff then
    (emit mOut (assemble .Adrp { rd := rd, imm := upper } pc)).bind fun mOut =>
      if upper ≠ value then (emit mOut (assembleAddImm true rd rd lower)).map (2, ·)
      else some (1, mOut)
  else if canUseInstrAsData then
    if 3 ≤ mOut.mCapacity - mOut.mSize then
      let addrOffs := mOut.mCapacity - 2 - 1
      let literal := mRx + BitVec.ofNat 64 (addrOffs * cInstrSize)
      (emit mOut (assemble .LdrLiteral { rd := rd, imm := literal } pc)).map fun mOut =>
        (1, { mOut with
          mData := (mOut.mData.set addrOffs ((value &&& bits 32).setWidth 32)).set (addrOffs + 1)
            (((value >>> 32) &&& bits 32).setWidth 32)
          mCapacity := mOut.mCapacity - 2 })
    else none
  else
    let startSize := mOut.mSize
    let anyMatch := (List.range 4).any fun i => part16 value i == part16 pc i
    let start :=
      if anyMatch then emit mOut (assemble .Adr { rd := rd, imm := pc } pc) else some mOut
    (start.bind fun mOut => emitMovk mOut rd value pc).map fun mOut =>
      (mOut.mSize - startSize, mOut)

/-- `emitBranch`; `emitB` and `emitBL` by the link. -/
def emitBranch (target : Ptr) (link : Bool) : Option (ℕ × VecSpan) :=
  let start := calcCurRxAddr mRx mOut
  let gap := target - start
  if abs gap ≤ cMaxBranchDistance then
    (mOut.add (makeUnconditionalBranch (if link then .BranchLink else .Branch) start target)).map
      (1, ·)
  else
    (emitMovImmediate64 canUseInstrAsData mRx mOut IP0 target).bind fun (movSize, mOut) =>
      (mOut.add (if link then cBlr else cBr)).map (movSize + 1, ·)

end

end Hakkun.Hook
