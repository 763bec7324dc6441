import Hakkun.Model.Hook.Hook
import Hakkun.Model.Ro.RoUtil

/-! # Writing branches

Translated from the aarch64 part of `hk/hook/InstrUtil.h`. The target of a branch is its address.
-/

namespace Hakkun.Hook

open Ro

/-- `UnconditionalBranchOp`. -/
inductive UnconditionalBranchOp where
  | Branch
  | BranchLink
  deriving DecidableEq

def UnconditionalBranchOp.value : UnconditionalBranchOp → U32
  | Branch => 0b000101
  | BranchLink => 0b100101

def cImm26Mask : U32 := 0b11111111111111111111111111

/-- `makeUnconditionalBranchRelative`; the address is an `s32`. -/
def makeUnconditionalBranchRelative (operand : UnconditionalBranchOp)
    (branchToRelativeAddress : U32) : Instr :=
  (branchToRelativeAddress.sdiv 4 &&& cImm26Mask) ||| (operand.value <<< 26)

/-- `makeUnconditionalBranch`. -/
def makeUnconditionalBranch (operand : UnconditionalBranchOp) (pcAddr branchToAddr : Ptr) : Instr :=
  makeUnconditionalBranchRelative operand ((branchToAddr - pcAddr).setWidth 32)

/-- `writeUnconditionalBranch`; `writeBranch` and `writeBranchLink` by the operand. -/
def writeUnconditionalBranch (operand : UnconditionalBranchOp) (module : RoModule)
    (memory : Memory) (offset : U64) (branchToAddr : Ptr) : Except String Unit × Memory :=
  writeInstrs module memory offset
    [makeUnconditionalBranch operand (module.mTextRange.mStart + offset) branchToAddr]

/-- `writeBranch` and `writeBranchLink`. -/
def writeBranch := writeUnconditionalBranch .Branch
def writeBranchLink := writeUnconditionalBranch .BranchLink

/-- The `AtPtr` form of either; there is no result where it dereferences a null module. -/
def writeUnconditionalBranchAtPtr (operand : UnconditionalBranchOp) (sModules : List LoadedModule)
    (memory : Memory) (addr branchToAddr : Ptr) : Option (Except String Unit × Memory) :=
  match (getModuleContaining sModules addr).bind fun i => sModules[i]? with
  | none => none
  | some module =>
    let offset := addr - module.range.mStart
    some (writeUnconditionalBranch operand module.toRoModule memory offset branchToAddr)

/-- `writeBranchAtPtr` and `writeBranchLinkAtPtr`. -/
def writeBranchAtPtr := writeUnconditionalBranchAtPtr .Branch
def writeBranchLinkAtPtr := writeUnconditionalBranchAtPtr .BranchLink

end Hakkun.Hook
