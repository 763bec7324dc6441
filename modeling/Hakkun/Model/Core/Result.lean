import Hakkun.Model.Core.Integer
import Mathlib.Logic.Function.Basic

/-! # Results and their traces

Translated from `hk/Result.h` and `hk/Result.cpp` with `HK_RESULT_ADVANCED`. A failed result
carries in its upper ten bits the number of a slot of a global array, which holds where the result
was made and the slot of the result it was made from. The slots are handed out in turn and used
again after the last one.
-/

namespace Hakkun

namespace ResultBase

def makeResult (module description debugRef : U32) : U32 :=
  (module &&& (bits 9).setWidth 32) ||| (description &&& (bits 13).setWidth 32) <<< 9 |||
    (debugRef &&& (bits 10).setWidth 32) <<< 22

def getModule (value : U32) : U32 := value &&& (bits 9).setWidth 32
def getDescription (value : U32) : U32 := (value >>> 9) &&& (bits 13).setWidth 32
def getDebugRef (value : U32) : ℕ := (value >>> 22).toNat

end ResultBase

/-- `detail::ResultDebugReference`. -/
structure ResultDebugReference where
  sourceFile : String
  expr : String
  sourceLine : ℕ
  sourceColumn : ℕ
  parentRef : ℕ

/-- `sCurRefIdx` and `sDebugRefs`; the slot of reference `ref` is at index `ref - 1`. -/
structure DebugRefs where
  sCurRefIdx : ℕ
  sDebugRefs : ℕ → ResultDebugReference

namespace DebugRefs

def cMaxDebugRefs : ℕ := 1023

/-- The slot that the next allocation hands out. -/
def nextRef (refs : DebugRefs) : ℕ :=
  if refs.sCurRefIdx ≥ cMaxDebugRefs then 1 else refs.sCurRefIdx

def get (refs : DebugRefs) (ref : ℕ) : ResultDebugReference := refs.sDebugRefs (ref - 1)

/-- `ResultDebugReference::allocate` and the write of the slot. -/
def allocate (refs : DebugRefs) (info : ResultDebugReference) : DebugRefs where
  sCurRefIdx := refs.nextRef + 1
  sDebugRefs := Function.update refs.sDebugRefs (refs.nextRef - 1) info

/-- `ResultBase::makeWithInfo`, which every construction and propagation of a result calls. -/
def makeWithInfo (refs : DebugRefs) (value : U32) (inInfo : ResultDebugReference) :
    U32 × DebugRefs :=
  if ResultBase.getModule value = 0 ∧ ResultBase.getModule value = ResultBase.getDescription value
  then (0, refs)
  else (ResultBase.makeResult (ResultBase.getModule value) (ResultBase.getDescription value)
      (BitVec.ofNat 32 refs.nextRef),
    refs.allocate { inInfo with parentRef := ResultBase.getDebugRef value })

/-- `calcNumParents`, and with it the loop of `dumpResultTrace`, cut off after `fuel` parents. -/
def calcNumParents (refs : DebugRefs) : ℕ → ℕ → Option ℕ
  | 0, _ => none
  | fuel + 1, ref =>
    if (refs.get ref).parentRef ≠ 0 then
      (refs.calcNumParents fuel (refs.get ref).parentRef).map (· + 1)
    else some 0

/-- The state at program start. -/
def init : DebugRefs where
  sCurRefIdx := 1
  sDebugRefs _ := ⟨"", "", 0, 0, 0⟩

end DebugRefs

end Hakkun
