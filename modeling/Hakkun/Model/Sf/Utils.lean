import Hakkun.Machine.Core.Store
import Hakkun.Model.Core.Integer

/-! # Packed arguments

Translated from `calcParamsSize` and `packInput` of `hk/sf/utils.h`. An argument is given by the
bytes of its value; an abort, and a write that goes beyond the array, has no result.
-/

namespace Hakkun.Sf

/-- `alignUp` at `u64`. -/
def alignUp (from_ alignment : U64) : U64 := (from_ + (alignment - 1)) &&& ~~~(alignment - 1)

/-- The size and the alignment of an argument's type. -/
structure ParamType where
  size : ℕ
  alignment : ℕ
  power : alignment ∈ [1, 2, 4, 8]
  multiple : alignment ∣ size
  positive : 0 < size
  bound : size < 2 ^ 64

namespace ParamType

def sizeof (type : ParamType) : U64 := BitVec.ofNat 64 type.size
def alignof (type : ParamType) : U64 := BitVec.ofNat 64 type.alignment

end ParamType

/-- The variables of `calcParamsSize`. -/
structure ParamsSize where
  totalSize : U32 := 0
  maxAlign : U32 := 1

/-- `max` at `u32`. -/
def max32 (first second : U32) : U32 := if first > second then first else second

def ParamsSize.add (params : ParamsSize) (type : ParamType) : ParamsSize :=
  let maxAlign := max32 params.maxAlign (type.alignof.setWidth 32)
  let totalSize := (alignUp (params.totalSize.setWidth 64) type.alignof).setWidth 32
  { totalSize := (totalSize.setWidth 64 + type.sizeof).setWidth 32
    maxAlign := maxAlign }

def calcParamsSize (types : List ParamType) : U64 :=
  let params := types.foldl ParamsSize.add {}
  ((alignUp (params.totalSize.setWidth 64) (params.maxAlign.setWidth 64)).setWidth 32).setWidth 64

/-- An argument. -/
structure Argument where
  type : ParamType
  bytes : List (BitVec 8)
  length : bytes.length = type.size

/-- The variables of `packInput`, and the offsets that were written so far. -/
structure Packing where
  array : List (BitVec 8)
  offset : Ptr := 0
  written : List Ptr := []

def Packing.add (packing : Packing) (argument : Argument) : Option Packing :=
  let offset := alignUp packing.offset argument.type.alignof
  if offset.toNat < packing.array.length then do
    let array ← Machine.store packing.array offset.toNat argument.bytes
    some {
      array := array
      offset := offset + argument.type.sizeof
      written := packing.written ++ [offset] }
  else none

def packInput (arguments : List Argument) : Option Packing :=
  arguments.foldlM Packing.add
    { array := List.replicate (calcParamsSize (arguments.map Argument.type)).toNat 0 }

end Hakkun.Sf
