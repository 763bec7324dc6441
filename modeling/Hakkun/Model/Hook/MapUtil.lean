import Hakkun.Model.Svc.MemoryInfo

/-! # Random placement of a mapping

Translated from `hk/hook/MapUtil.cpp`. Random numbers and the answers of the kernel are given for
each turn of the loop; a query that fails aborts.
-/

namespace Hakkun.Hook

open Svc

/-- `alignUpPage`. -/
def alignUpPage (value : U64) : U64 := (value + (cPageSize - 1)) &&& ~~~(cPageSize - 1)

def regionsOverlap (a aSize b bSize : U64) : Bool :=
  decide (a < b + bSize) && decide (b < a + aSize)

/-- What `svc::GetInfo` gives for the searched region, the alias region and the heap. -/
structure MapInfo where
  regionStart : U64
  regionSize : U64
  aliasStart : U64
  aliasSize : U64
  heapStart : U64
  heapSize : U64

/-- The answer to the query of a turn for an address. -/
abbrev QueryAnswers := ℕ → Ptr → Option MemoryInfo

/-- How far the loop has come. -/
inductive FindStatus where
  | running
  | aborted
  | found (attempt : Ptr)
  deriving DecidableEq

namespace MapInfo

variable (info : MapInfo) (searchSize : U64)

def maxPage : U64 := (info.regionSize - searchSize) / cPageSize

/-- The address that a turn tries for a random number. -/
def attempt (random : U64) : Ptr :=
  let randomPage := random % info.maxPage searchSize
  info.regionStart + randomPage * cPageSize

/-- The test of a turn. -/
def accepts (attempt : Ptr) (memInfo : MemoryInfo) : Bool :=
  memInfo.state == .Free && decide (attempt + searchSize ≤ memInfo.base_address + memInfo.size) &&
    !regionsOverlap attempt searchSize info.aliasStart info.aliasSize &&
      !regionsOverlap attempt searchSize info.heapStart info.heapSize

/-- The loop of `findMap` from some turn on. -/
def findMapLoop (random : ℕ → U64) (query : QueryAnswers) : (turns turn : ℕ) → FindStatus
  | 0, _ => .running
  | turns + 1, turn =>
    let attempt := info.attempt searchSize (random turn)
    match query turn attempt with
    | none => .aborted
    | some memInfo =>
      if info.accepts searchSize attempt memInfo then .found attempt
      else findMapLoop random query turns (turn + 1)

/-- `findMap`, for some turns of its loop. -/
def findMap (random : ℕ → U64) (query : QueryAnswers) (turns : ℕ) : FindStatus :=
  info.findMapLoop (alignUpPage searchSize) random query turns 0

end MapInfo

end Hakkun.Hook
