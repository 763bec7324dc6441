import Hakkun.Model.Hook.Emitter
import Hakkun.Model.Hook.Hook

/-! # Replacements and trampolines

Translated from `Replace::installAtOffset` of `hk/hook/Replace.h`, and from `hk/hook/Trampoline.h`
and `hk/hook/Trampoline.cpp`. The handler is its address, and `N` is `cHookMaxOverwriteSize`: 1, 2
or 5 by the level of trampolines. The words of a backup are at `getRx` in the pool of trampolines,
and their number is `MaxNumInstrs`. There is no result where the emitter or an instruction that
cannot be moved aborts.
-/

namespace Hakkun.Hook

open Ro

/-- The instructions that a hook writes over the start of a function. -/
def hookInstrs (N : ℕ) (hookAt target : Ptr) : Option (List Instr) :=
  (emitBranch false hookAt { mData := List.replicate N 0, mCapacity := N } target false).map
    fun (_, outInstrs) => outInstrs.mData.take outInstrs.mSize

/-- `Replace::installAtOffset`; the hook is its base. -/
def Replace.installAtOffset (N : ℕ) (mFunc : Ptr) (hook : HookNInstr) (memory : Memory)
    (module : RoModule) (offset : U64) : Option (Except String Unit × HookNInstr × Memory) :=
  if hook.isInstalled then some (.error "AlreadyInstalled", hook, memory)
  else
    (hookInstrs N (module.mTextRange.mStart + offset) mFunc).map fun instrs =>
      hook.installAtOffset N memory ⟨module, offset, instrs⟩

end Hakkun.Hook

/-! ## Trampolines -/

namespace Hakkun.Hook

open Ro

section

variable (trampolineRx : Ptr) (out : VecSpan)

/-- `calcRxAddr`. -/
def calcRxAddr (idx : ℕ) : Ptr := trampolineRx + BitVec.ofNat 64 (idx * cInstrSize)

/-- A branch to the target of a conditional branch, and before it the inverted one over it. -/
def relocateConditional (type : IInstrType) (rd shiftImm : U64) (addr : Ptr) : Option VecSpan :=
  let idx := out.mSize
  (out.add 0).bind fun out =>
    (emitBranch true trampolineRx out addr false).bind fun (_, out) =>
      let returnPc := calcCurRxAddr trampolineRx out
      (assemble type { rd := rd, imm := returnPc, shiftImm := shiftImm }
        (calcRxAddr trampolineRx idx)).map fun instr =>
          { out with mData := out.mData.set idx instr }

/-- `relocate`, with `skipReturn` after it. -/
def relocate (skipReturn : Bool) (orig : Instr) (origAddr : Ptr) (isLast : Bool) :
    Option (VecSpan × Bool) :=
  if cwAdr.test orig || cwAdrp.test orig then
    (emitMovImmediate64 true trampolineRx out (grabRd orig) (grabAdrAdrpAddr orig origAddr)).map
      fun (_, out) => (out, skipReturn)
  else if cwB.test orig || cwBL.test orig then
    if cwB.test orig && !isLast then none
    else
      (emitBranch true trampolineRx out (grabBBLAddr orig origAddr) (cwBL.test orig)).map
        fun (_, out) => (out, cwB.test orig || skipReturn)
  else if cwBcond.test orig then
    if !isLast then none
    else
      (relocateConditional trampolineRx out .Bcond 0 (grabBcondCond orig ^^^ 1)
        (grabBcondCbzCbnzLdrRelativeAddr orig origAddr)).map (·, skipReturn)
  else if cwCbz.test orig || cwCbnz.test orig then
    if !isLast then none
    else
      (relocateConditional trampolineRx out (if cwCbnz.test orig then .Cbz else .Cbnz)
        ((grabRd orig).setWidth 64) 0 (grabBcondCbzCbnzLdrRelativeAddr orig origAddr)).map
          (·, skipReturn)
  else if cwTbz.test orig || cwTbnz.test orig then
    if !isLast then none
    else
      (relocateConditional trampolineRx out (if cwTbnz.test orig then .Tbz else .Tbnz)
        ((grabRd orig).setWidth 64) ((grabTbzTbnzBitIndex orig).setWidth 64)
        (grabTbzTbnzAddr orig origAddr)).map (·, skipReturn)
  else if cwLdrLiteral.test orig then none
  else (out.add orig).map (·, skipReturn)

/-- `makeTrampolineBackup`; the buffer that it leaves. -/
def makeTrampolineBackup (orig : List Instr) (origAddr origReturnAddr : Ptr) : Option VecSpan :=
  if (origAddr - origReturnAddr) % BitVec.ofNat 64 cInstrSize = 0 then
    (orig.zipIdx.foldlM (fun (out, skipReturn) (origInstr, i) =>
      relocate trampolineRx out skipReturn origInstr
        (origAddr + BitVec.ofNat 64 (i * cInstrSize)) (i == orig.length - 1)) (out, false)).bind
      fun (out, skipReturn) =>
        if skipReturn then some out
        else (emitBranch true trampolineRx out origReturnAddr false).map Prod.snd
  else none

end

/-- `TrampolineBackupBase` and where it is executed. -/
structure TrampolineBackup where
  instrs : List Instr
  getRx : Ptr

namespace TrampolineBackup

/-- `make`. -/
def make (backup : TrampolineBackup) (orig : List Instr) (origAddr origReturnAddr : Ptr) :
    Option TrampolineBackup :=
  (makeTrampolineBackup backup.getRx
    { mData := backup.instrs, mCapacity := backup.instrs.length } orig origAddr
    origReturnAddr).map fun out => { backup with instrs := out.mData }

end TrampolineBackup

/-- What an install leaves in a hook, in memory and in the backup. -/
structure Trampoline.Left where
  hook : HookNInstr
  memory : Memory
  backup : TrampolineBackup

/-- `TrampolineStaticBase::installAtOffset`. -/
def Trampoline.installAtOffset (N : ℕ) (target : Ptr) (before : Trampoline.Left) (module : RoModule)
    (offset : U64) : Option (Except String Unit × Trampoline.Left) :=
  let hookAt := module.mTextRange.mStart + offset
  (hookInstrs N hookAt target).bind fun instrs =>
    let orig := readInstrs module before.memory offset instrs.length
    (before.backup.make orig hookAt
      (hookAt + BitVec.ofNat 64 (instrs.length * cInstrSize))).map fun backup =>
        let (rc, hook, memory) :=
          before.hook.installAtOffset N before.memory ⟨module, offset, instrs⟩
        (rc, ⟨hook, memory, backup⟩)

end Hakkun.Hook
