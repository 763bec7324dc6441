import Hakkun.Model.Core.Integer

/-! # Descriptors of interprocess messages

Translated from `hk/sf/hipc.h`. A bit field is as wide as it is declared, so what a constructor puts
into it is cut to that width.
-/

namespace Hakkun.Sf.Hipc

structure Static where
  index : BitVec 6
  addressHigh : BitVec 6
  addressMid : BitVec 4
  size : BitVec 16
  addressLow : U32
  deriving DecidableEq

def Static.make (index : BitVec 8) (address : U64) (size : BitVec 16) : Static where
  index := index.setWidth 6
  size := size
  addressLow := (address &&& bits 32).setWidth 32
  addressMid := ((address >>> 32) &&& bits 4).setWidth 4
  addressHigh := ((address >>> 36) &&& bits 6).setWidth 6

inductive BufferMode where
  | Normal
  | NonSecure
  | NonDevice
  deriving DecidableEq

structure Buffer where
  sizeLow : U32
  addressLow : U32
  mode : BufferMode
  addressHigh : BitVec 22
  sizeHigh : BitVec 4
  addressMid : BitVec 4
  deriving DecidableEq

def Buffer.make (mode : BufferMode) (address size : U64) : Buffer where
  mode := mode
  addressLow := (address &&& bits 32).setWidth 32
  addressMid := ((address >>> 32) &&& bits 4).setWidth 4
  addressHigh := ((address >>> 36) &&& bits 22).setWidth 22
  sizeLow := (size &&& bits 32).setWidth 32
  sizeHigh := ((size >>> 32) &&& bits 4).setWidth 4

/-- `Buffer::size`. -/
def Buffer.size (buffer : Buffer) : U64 :=
  buffer.sizeLow.setWidth 64 ||| (buffer.sizeHigh.setWidth 64 <<< 32)

structure ReceiveStatic where
  addressLow : U32
  addressHigh : BitVec 16
  size : BitVec 16
  deriving DecidableEq

def ReceiveStatic.make (address : U64) (size : BitVec 16) : ReceiveStatic where
  size := size
  addressLow := (address &&& bits 32).setWidth 32
  addressHigh := ((address >>> 32) &&& bits 32).setWidth 16

/-- The default constructor. -/
def ReceiveStatic.empty : ReceiveStatic := .make 0 0

theorem Buffer.size_toNat (buffer : Buffer) :
    buffer.size.toNat = buffer.sizeHigh.toNat * 2 ^ 32 + buffer.sizeLow.toNat := by
  have low := buffer.sizeLow.isLt
  have high := buffer.sizeHigh.isLt
  rw [Buffer.size, BitVec.toNat_or, BitVec.toNat_shiftLeft, BitVec.toNat_setWidth,
    BitVec.toNat_setWidth, Nat.mod_eq_of_lt (by omega), Nat.mod_eq_of_lt (by omega), Nat.or_comm,
    Nat.shiftLeft_eq, Nat.mod_eq_of_lt (by omega), ← Nat.shiftLeft_eq,
    ← Nat.shiftLeft_add_eq_or_of_lt low, Nat.shiftLeft_eq]

/-- A buffer descriptor holds the low 36 bits of a size. -/
theorem Buffer.size_make (mode : BufferMode) (address size : U64) :
    (Buffer.make mode address size).size.toNat = size.toNat % 2 ^ 36 := by
  have low : ((size &&& bits 32).setWidth 32).toNat = size.toNat % 2 ^ 32 := by
    rw [BitVec.toNat_setWidth, and_bits_toNat size (by decide), Nat.mod_mod]
  have high : (((size >>> 32) &&& bits 4).setWidth 4).toNat = size.toNat / 2 ^ 32 % 2 ^ 4 := by
    rw [BitVec.toNat_setWidth, and_bits_toNat _ (by decide), Nat.mod_mod, BitVec.toNat_ushiftRight,
      Nat.shiftRight_eq_div_pow]
  rw [Buffer.size_toNat]
  change ((size >>> 32 &&& bits 4).setWidth 4).toNat * 2 ^ 32 +
    ((size &&& bits 32).setWidth 32).toNat = _
  rw [low, high]
  omega

end Hakkun.Sf.Hipc
