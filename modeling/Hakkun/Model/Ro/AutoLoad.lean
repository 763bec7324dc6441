import Hakkun.Model.Svc.MemoryInfo

/-! # Modules in the order of the address space

Translated from `forEachAutoLoadModuleImpl` of `hk/ro/RoUtil.h`, for any query. Its result is what
the callback was called with, and what is returned; fuel bounds the turns of both loops.
-/

namespace Hakkun.Ro

open Svc

/-- What the query function gives for an address, without a result where it fails. -/
abbrev QueryFunc := Ptr → Option Svc.MemoryInfo

/-- What is returned instead of success. -/
inductive WalkError where
  | queryFailed
  | UnusualSectionLayout
  deriving DecidableEq

/-- The arguments of the callback. -/
structure ModuleBases where
  textBase : Ptr
  rodataBase : Ptr
  bssBase : Ptr
  deriving DecidableEq

/-- `curRangeInfo.base_address + curRangeInfo.size`. -/
def nextAddress (curRangeInfo : Svc.MemoryInfo) : Ptr :=
  curRangeInfo.base_address + curRangeInfo.size

/-- The loop over regions that can be read alone; `none` if fuel ends it. -/
def skipReadOnly (query : QueryFunc) :
    (fuel : ℕ) → Svc.MemoryInfo → Option (Except WalkError Svc.MemoryInfo)
  | 0, _ => none
  | fuel + 1, curRangeInfo =>
    if curRangeInfo.permission = .Read then
      match query (nextAddress curRangeInfo) with
      | none => some (.error .queryFailed)
      | some curRangeInfo => skipReadOnly query fuel curRangeInfo
    else some (.ok curRangeInfo)

/-- The calls of the callback, and what is returned unless fuel ends it. -/
abbrev WalkResult := List ModuleBases × Option (Except WalkError Unit)

/-- The turns of a loop after a call of the callback. -/
def WalkResult.push (bases : ModuleBases) (later : WalkResult) : WalkResult :=
  (bases :: later.1, later.2)

def forEachAutoLoadModuleImpl (query : QueryFunc) : (fuel : ℕ) → (addr : Ptr) → WalkResult
  | 0, _ => ([], none)
  | fuel + 1, addr =>
    match query addr with
    | none => ([], some (.error .queryFailed))
    | some text =>
      if text.state = .Free then ([], some (.ok ()))
      else if text.permission ≠ .ReadExecute then ([], some (.error .UnusualSectionLayout))
      else
        match query (nextAddress text) with
        | none => ([], some (.error .queryFailed))
        | some rodata =>
          if rodata.permission ≠ .Read then ([], some (.error .UnusualSectionLayout))
          else
            match skipReadOnly query fuel rodata with
            | none => ([], none)
            | some (.error error) => ([], some (.error error))
            | some (.ok bss) =>
              if bss.permission ≠ .ReadWrite then ([], some (.error .UnusualSectionLayout))
              else
                (forEachAutoLoadModuleImpl query fuel (nextAddress bss)).push
                  ⟨text.base_address, rodata.base_address, bss.base_address⟩

end Hakkun.Ro
