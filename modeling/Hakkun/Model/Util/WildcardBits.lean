import Hakkun.Model.Core.Integer

/-! # Wildcard patterns of any width

Translated from `WildcardBits` in `hk/util/Math.h`, for every unsigned integer type and any number
of values. The patterns of instructions are those of 32 bits.
-/

namespace Hakkun.Util

/-- The unsigned integer types. -/
inductive UnsignedIntegerType where
  | u8
  | u16
  | u32
  | u64

/-- `IntegerTraits<T>::cWidth`. -/
def UnsignedIntegerType.cWidth : UnsignedIntegerType → ℕ
  | .u8 => 8
  | .u16 => 16
  | .u32 => 32
  | .u64 => 64

/-- `WildcardBits<T, NumValues>`. -/
structure WildcardBits (T : UnsignedIntegerType) where
  mask : BitVec T.cWidth
  bits : List (BitVec T.cWidth)

namespace WildcardBits

variable {T : UnsignedIntegerType}

def test (pattern : WildcardBits T) (value : BitVec T.cWidth) : Bool :=
  let testValue := value &&& pattern.mask
  pattern.bits.any fun bits => testValue == bits

/-- `operator or`. -/
def or (lhs rhs : WildcardBits T) : WildcardBits T := ⟨lhs.mask &&& rhs.mask, lhs.bits ++ rhs.bits⟩

/-- One character of the constructor's loop, from the last character at bit 0 upwards. -/
def addBit (pattern : BitVec T.cWidth × BitVec T.cWidth) (entry : Char × ℕ) :
    Option (BitVec T.cWidth × BitVec T.cWidth) :=
  match entry.1 with
  | '?' => some (pattern.1 &&& ~~~(bit entry.2).setWidth T.cWidth, pattern.2)
  | '1' => some (pattern.1, pattern.2 ||| (bit entry.2).setWidth T.cWidth)
  | '0' => some pattern
  | _ => none

/-- The `consteval` constructor from text; `none` is a compile-time error. -/
def ofText (expr : List Char) : Option (WildcardBits T) :=
  if expr.length > T.cWidth then none
  else
    (expr.reverse.zipIdx.foldlM addBit ((Hakkun.bits expr.length).setWidth T.cWidth, 0)).map
      fun (mask, bits) => ⟨mask, [bits]⟩

end WildcardBits

end Hakkun.Util
