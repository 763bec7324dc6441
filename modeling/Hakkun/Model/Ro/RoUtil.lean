import Hakkun.Model.Ro.RoModule
import Mathlib.Data.List.Basic

/-! # Modules in the address space

Translated from `RoModule::findRanges` and `range` of `hk/ro/RoModule.cpp` and `hk/ro/RoModule.h`,
`getModuleContaining` of `hk/ro/RoUtil.cpp` and `installAtPtr` of `hk/hook/Hook.h`. A pointer to a
module is its index in `sModules`.
-/

namespace Hakkun.Ro

/-- A module with its data section. -/
structure LoadedModule extends RoModule where
  mDataRange : Range

namespace LoadedModule

/-- `RoModule::range`. -/
def range (module : LoadedModule) : Range :=
  ⟨module.mTextRange.mStart,
    module.mTextRange.mSize + module.mRodataRange.mSize + module.mDataRange.mSize⟩

end LoadedModule

/-! ## Section layout -/

/-- `svc::MemoryPermission`, as far as the layout of a module tells them apart. -/
inductive MemoryPermission where
  | Read
  | ReadWrite
  | ReadExecute
  | other
  deriving DecidableEq

/-- `svc::MemoryInfo`. -/
structure MemoryInfo where
  base_address : Ptr
  size : U64
  permission : MemoryPermission
  deriving DecidableEq

/-- Why ranges are not found: a result, a failed assertion, or regions that were not walked yet. -/
inductive RangesError where
  | queryFailed
  | UnusualSectionLayout
  | assertion
  | unfinished
  deriving DecidableEq

/-- `svc::QueryMemory`, without a result where it fails. -/
abbrev QueryMemory := Ptr → Option MemoryInfo

def QueryMemory.tryQuery (queryMemory : QueryMemory) (address : Ptr) :
    Except RangesError MemoryInfo :=
  match queryMemory address with
  | none => .error .queryFailed
  | some info => .ok info

def MemoryInfo.stop (info : MemoryInfo) : Ptr := info.base_address + info.size

def MemoryInfo.range (info : MemoryInfo) : Range := ⟨info.base_address, info.size⟩

/-- The loop over regions that can be read; fuel bounds their number. -/
def skipRead (queryMemory : QueryMemory) : ℕ → MemoryInfo → Except RangesError MemoryInfo
  | 0, _ => .error .unfinished
  | fuel + 1, info =>
    if info.permission = .Read then do
      let info ← queryMemory.tryQuery info.stop
      skipRead queryMemory fuel info
    else .ok info

/-- `RoModule::findRanges` of a module that was loaded at `m_Base`. -/
def LoadedModule.findRanges (queryMemory : QueryMemory) (fuel : ℕ) (m_Base : Ptr)
    (module : LoadedModule) : Except RangesError LoadedModule := do
  let text ← queryMemory.tryQuery m_Base
  if text.base_address ≠ m_Base then .error .assertion
  else if text.permission ≠ .ReadExecute then .error .UnusualSectionLayout
  else do
    let rodata ← queryMemory.tryQuery text.stop
    if rodata.permission ≠ .Read then .error .UnusualSectionLayout
    else do
      let data ← skipRead queryMemory fuel rodata
      if data.permission ≠ .ReadWrite then .error .UnusualSectionLayout
      else .ok { module with
        mTextRange := text.range
        mRodataRange := rodata.range
        mDataRange := data.range }

/-! ## Modules by address -/

/-- `getModuleContaining`. -/
def getModuleContaining (sModules : List LoadedModule) (addr : Ptr) : Option ℕ :=
  sModules.findIdx? fun module => addr ≥ module.range.mStart ∧ addr ≤ module.range.stop

/-- The errors of `installAtPtr`, and what the install by offset gives. -/
inductive InstallResult (R : Type) where
  | InvalidAddress
  | OutOfBounds
  | installed (result : R)

/-- `HookOperations::installAtPtr`, for any `installAtOffset` of the module with an index. -/
def installAtPtr {R : Type} (sModules : List LoadedModule) (installAtOffset : ℕ → U64 → R)
    (addr : Ptr) : InstallResult R :=
  if addr = 0 then .InvalidAddress
  else
    match getModuleContaining sModules addr with
    | none => .OutOfBounds
    | some i =>
      match sModules[i]? with
      | none => .OutOfBounds
      | some module => .installed (installAtOffset i (addr - module.range.mStart))

end Hakkun.Ro
