import Hakkun.Machine.Core.Run
import Hakkun.Model.Container.BitArray

/-! # Pool allocator

Translated from `hk/util/PoolAllocator.h`. An object is named by its distance from the buffer, in
elements and as a `size`. A history pairs an allocator with the objects that were handed out and
not freed since; a call that aborts ends it.
-/

namespace Hakkun.Util

/-- `PoolAllocator<T, Capacity>`. -/
structure PoolAllocator (Capacity : ℕ) where
  mAllocations : BitArray Capacity := {}

namespace PoolAllocator

variable {Capacity : ℕ}

/-- `getData`, the object at an index. -/
def getData (Capacity index : ℕ) : Except String ℕ :=
  if index < Capacity then .ok index
  else .error "PoolAllocator<%s, %zu>: invalid index (%zu not in buffer)"

/-- The loop of `allocateIdx` with what is left of its range. -/
def allocateIdxLoop (pool : PoolAllocator Capacity) :
    ℕ → ℕ → Except String (ℤ × PoolAllocator Capacity)
  | 0, _ => .ok (-1, pool)
  | left + 1, i => do
    if (← pool.mAllocations.get (toS32 i)) = false then
      let allocations ← pool.mAllocations.set (toS32 i) true
      return (toS32 i, ⟨allocations⟩)
    else allocateIdxLoop pool left (i + 1)

def allocateIdx (pool : PoolAllocator Capacity) : Except String (ℤ × PoolAllocator Capacity) :=
  allocateIdxLoop pool Capacity 0

def allocate (pool : PoolAllocator Capacity) :
    Except String (Option ℕ × PoolAllocator Capacity) := do
  let (idx, pool) ← pool.allocateIdx
  if idx = -1 then return (none, pool)
  else return (some (← getData Capacity idx.toNat), pool)

def freeIdx (pool : PoolAllocator Capacity) (index : ℤ) :
    Except String (PoolAllocator Capacity) := do
  if ¬ (index ≥ 0 ∧ index < Capacity) then
    throw "PoolAllocator<%s, %zu>: invalid free (%d not in buffer)"
  if (← pool.mAllocations.get index) ≠ true then
    throw "PoolAllocator<%s, %zu>: double free (idx %d)"
  return ⟨← pool.mAllocations.set index false⟩

def free (pool : PoolAllocator Capacity) (index : U64) : Except String (PoolAllocator Capacity) := do
  if ¬ index.toNat < Capacity then
    throw "PoolAllocator<%s, %zu>: invalid free (%p not in buffer)"
  if (← pool.mAllocations.get (toS32 index.toNat)) ≠ true then
    throw "PoolAllocator<%s, %zu>: double free (ptr %p, idx %zd)"
  pool.freeIdx (toS32 index.toNat)

inductive Call where
  | allocate
  | free (index : U64)

/-- An allocator and its outstanding objects. -/
structure History (Capacity : ℕ) where
  pool : PoolAllocator Capacity := {}
  outstanding : List ℕ := []

/-- A call that does not abort. -/
def History.step (history : History Capacity) : Call → Option (History Capacity)
  | .allocate =>
    match history.pool.allocate with
    | .ok (some index, pool) => some ⟨pool, index :: history.outstanding⟩
    | .ok (none, pool) => some ⟨pool, history.outstanding⟩
    | .error _ => none
  | .free index =>
    match history.pool.free index with
    | .ok pool => some ⟨pool, history.outstanding.erase index.toNat⟩
    | .error _ => none

end PoolAllocator

end Hakkun.Util
