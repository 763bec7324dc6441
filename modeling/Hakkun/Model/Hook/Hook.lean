import Hakkun.Machine.Core.Installation
import Hakkun.Model.Hook.Instrs
import Hakkun.Model.Ro.RoModule
import Mathlib.Data.List.Basic

/-! # Hooks and installable blocks of instructions

Translated from `HookNInstr` of `hk/hook/Hook.h` and `AsmBlock` of `hk/hook/a64/Assembler.h`. A
module pointer is the module itself, or `none` where it is null; what is at an address of a module
is read through the mapping that the process executes.
-/

namespace Hakkun.Hook

open Ro Machine

/-- The bytes of instructions in memory. -/
def instrByte (instrs : List Instr) (i : ℕ) : Byte :=
  (instrs.getD (i / cInstrSize) 0 >>> (8 * (i % cInstrSize))).setWidth 8

/-- The byte at an offset from the start of a module: text and rodata are what is behind their
aliases, everything else has one mapping. -/
def roByte (module : RoModule) (memory : Memory) (offset : U64) : Byte :=
  if offset.toNat < module.textBytes + module.rodataBytes then module.byteAt memory offset.toNat
  else memory (module.mTextRange.mStart + offset)

/-- The instruction at an offset. -/
def readInstr (module : RoModule) (memory : Memory) (offset : U64) : Instr :=
  roByte module memory (offset + 3) ++ roByte module memory (offset + 2) ++
    roByte module memory (offset + 1) ++ roByte module memory (offset + 0)

/-- `n` instructions from an offset on. -/
def readInstrs (module : RoModule) (memory : Memory) (offset : U64) (n : ℕ) : List Instr :=
  (List.range n).map fun i => readInstr module memory (offset + BitVec.ofNat 64 (i * cInstrSize))

/-- `writeRo` of instructions. -/
def writeInstrs (module : RoModule) (memory : Memory) (offset : U64) (instrs : List Instr) :
    Except String Unit × Memory :=
  module.writeRo memory offset (instrByte instrs) (BitVec.ofNat 64 (instrs.length * cInstrSize))

/-! ## `HookNInstr` -/

/-- `HookNInstr` with its base; `mOrigInstrs` has `N` elements. -/
structure HookNInstr where
  mModule : Option RoModule := none
  mOffset : U64 := 0
  mOrigInstrs : List Instr

namespace HookNInstr

/-- A constructed hook, and what `clear` leaves. -/
def cleared (N : ℕ) : HookNInstr := { mOrigInstrs := List.replicate N 0 }

/-- `isInstalled`. -/
def isInstalled (hook : HookNInstr) : Bool := hook.mOrigInstrs.headD 0 != 0

/-- Where and what an install writes. -/
structure Request where
  module : RoModule
  offset : U64
  instrs : List Instr

/-- `installAtOffset`. -/
def installAtOffset (N : ℕ) (hook : HookNInstr) (memory : Memory) (request : Request) :
    Except String Unit × HookNInstr × Memory :=
  if hook.isInstalled then (.error "AlreadyInstalled", hook, memory)
  else
    let hook : HookNInstr :=
      { mModule := some request.module
        mOffset := request.offset
        mOrigInstrs := readInstrs request.module memory request.offset N }
    match writeInstrs request.module memory request.offset request.instrs with
    | (.error rc, memory) => (.error rc, cleared N, memory)
    | (.ok (), memory) => (.ok (), hook, memory)

/-- `uninstall`; the module of an installed hook is not null. -/
def uninstall (N : ℕ) (hook : HookNInstr) (memory : Memory) :
    Except String Unit × HookNInstr × Memory :=
  if !hook.isInstalled then (.error "NotInstalled", hook, memory)
  else
    match hook.mModule with
    | none => (.error "NullModule", hook, memory)
    | some module =>
      match writeInstrs module memory hook.mOffset hook.mOrigInstrs with
      | (.error rc, memory) => (.error rc, hook, memory)
      | (.ok (), memory) => (.ok (), cleared N, memory)

/-- The calls of a hook. -/
def installer (N : ℕ) : Installer HookNInstr Memory Request where
  isInstalled := isInstalled
  install := installAtOffset N
  uninstall := uninstall N

end HookNInstr

/-! ## `AsmBlock` -/

/-- An uninstallable `AsmBlock` of `NumInstrs` instructions, which are a function of the address
that the block is assembled for. -/
structure AsmBlock (NumInstrs : ℕ) where
  assemble : Ptr → List Instr
  assemble_length : ∀ startAddr, (assemble startAddr).length = NumInstrs
  mOffset : U64 := 0
  mOrigInstrs : List Instr := List.replicate NumInstrs 0
  mModule : Option RoModule := none

namespace AsmBlock

variable {NumInstrs : ℕ}

/-- `isInstalled`. -/
def isInstalled (block : AsmBlock NumInstrs) : Bool := block.mOffset != 0

/-- Where a block is installed. -/
structure Request where
  module : RoModule
  offset : U64

/-- The instructions that an install writes. -/
def instrs (block : AsmBlock NumInstrs) (request : Request) : List Instr :=
  block.assemble (request.module.mTextRange.mStart + request.offset)

/-- `tryInstallAtOffset`. -/
def tryInstallAtOffset (block : AsmBlock NumInstrs) (memory : Memory) (request : Request) :
    Except String Unit × AsmBlock NumInstrs × Memory :=
  if block.isInstalled then (.error "AlreadyInstalled", block, memory)
  else
    let instrs := block.instrs request
    let block : AsmBlock NumInstrs :=
      { block with mOrigInstrs := readInstrs request.module memory request.offset NumInstrs }
    match writeInstrs request.module memory request.offset instrs with
    | (.error rc, memory) => (.error rc, block, memory)
    | (.ok (), memory) =>
      (.ok (), { block with mOffset := request.offset, mModule := some request.module }, memory)

/-- `uninstall`; the module of an installed block is not null. -/
def uninstall (block : AsmBlock NumInstrs) (memory : Memory) :
    Except String Unit × AsmBlock NumInstrs × Memory :=
  if !block.isInstalled then (.error "NotInstalled", block, memory)
  else
    match block.mModule with
    | none => (.error "NullModule", block, memory)
    | some module =>
      match writeInstrs module memory block.mOffset block.mOrigInstrs with
      | (.error rc, memory) => (.error rc, block, memory)
      | (.ok (), memory) => (.ok (), { block with mOffset := 0, mModule := none }, memory)

/-- The calls of a block. -/
def installer (NumInstrs : ℕ) : Installer (AsmBlock NumInstrs) Memory Request where
  isInstalled := isInstalled
  install := tryInstallAtOffset
  uninstall := uninstall

end AsmBlock

end Hakkun.Hook
