import Hakkun.Model.Sf.WriteToTls
import Hakkun.Soundness.ReplyExtent
import Mathlib.Data.List.GetD

/-! # Requests as bytes

The headers and descriptors of a message are read back from the bytes that they are written as. A
descriptor holds fewer bits of an address than there are.
-/

namespace Hakkun.Sf

open Hipc Ro Util

/-! ## Values as bytes -/

/-- The bytes from an offset on are those of a list. -/
def Spells (bytes : ℕ → Byte) (offset : ℕ) (list : List Byte) : Prop :=
  ∀ i < list.length, bytes (offset + i) = list.getD i 0

section Spells

variable {bytes : ℕ → Byte} {offset : ℕ}

theorem Spells.append {first second : List Byte} (spells : Spells bytes offset (first ++ second)) :
    Spells bytes offset first ∧ Spells bytes (offset + first.length) second := by
  rw [Spells, List.length_append] at spells
  refine ⟨fun i bound => ?_, fun i bound => ?_⟩
  · rw [spells i (by omega), List.getD_append _ _ _ _ bound]
  · rw [Nat.add_assoc, spells _ (by omega), List.getD_append_right _ _ _ _ (Nat.le_add_right _ i),
      Nat.add_sub_cancel_left]

theorem word_of_spells {value : U32} (spells : Spells bytes offset (wordBytes value)) :
    word bytes offset = value := by
  have first : bytes offset = value.extractLsb' 0 8 := spells 0 (show 0 < 4 by decide)
  have second : bytes (offset + 1) = value.extractLsb' 8 8 := spells 1 (show 1 < 4 by decide)
  have third : bytes (offset + 2) = value.extractLsb' 16 8 := spells 2 (show 2 < 4 by decide)
  have fourth : bytes (offset + 3) = value.extractLsb' 24 8 := spells 3 (show 3 < 4 by decide)
  rw [word, first, second, third, fourth]
  apply BitVec.eq_of_getLsbD_eq
  intro i bound
  simp only [BitVec.getLsbD_append, BitVec.getLsbD_extractLsb']
  grind

/-- The `u16` with given bytes, low byte first. -/
def half (bytes : ℕ → Byte) (offset : ℕ) : BitVec 16 := bytes (offset + 1) ++ bytes offset

theorem half_of_spells {value : BitVec 16} (spells : Spells bytes offset (halfBytes value)) :
    half bytes offset = value := by
  have first : bytes offset = value.extractLsb' 0 8 := spells 0 (show 0 < 2 by decide)
  have second : bytes (offset + 1) = value.extractLsb' 8 8 := spells 1 (show 1 < 2 by decide)
  rw [half, first, second]
  apply BitVec.eq_of_getLsbD_eq
  intro i bound
  simp only [BitVec.getLsbD_append, BitVec.getLsbD_extractLsb']
  grind

theorem words_of_spells {first second : U32}
    (spells : Spells bytes 0 (wordBytes first ++ wordBytes second)) :
    word bytes 0 = first ∧ word bytes 4 = second :=
  ⟨word_of_spells spells.append.1, word_of_spells spells.append.2⟩

end Spells

namespace Hipc

def BufferMode.ofBits (bits : BitVec 2) : BufferMode :=
  if bits = 0 then .Normal else if bits = 1 then .NonSecure else .NonDevice

def Buffer.ofBytes (bytes : ℕ → Byte) : Buffer where
  sizeLow := word bytes 0
  addressLow := word bytes 4
  mode := .ofBits ((word bytes 8).extractLsb' 0 2)
  addressHigh := (word bytes 8).extractLsb' 2 22
  sizeHigh := (word bytes 8).extractLsb' 24 4
  addressMid := (word bytes 8).extractLsb' 28 4

def ReceiveStatic.ofBytes (bytes : ℕ → Byte) : ReceiveStatic where
  addressLow := word bytes 0
  addressHigh := (word bytes 4).extractLsb' 0 16
  size := (word bytes 4).extractLsb' 16 16

variable {bytes : ℕ → Byte}

theorem Header.ofBytes_of_spells {header : Header} (spells : Spells bytes 0 header.toBytes) :
    Header.ofBytes bytes = header := by
  obtain ⟨low, high⟩ := words_of_spells spells
  rw [Header.ofBytes, low, high]
  cases header
  congr 1 <;> (try apply BitVec.eq_of_getLsbD_eq; intro i bound) <;>
    simp only [BitVec.getLsbD_append, BitVec.getLsbD_extractLsb', BitVec.getLsbD_ofBool] <;> grind

theorem SpecialHeader.ofBytes_of_spells {header : SpecialHeader}
    (spells : Spells bytes 0 header.toBytes) : SpecialHeader.ofBytes bytes = header := by
  rw [SpecialHeader.ofBytes, word_of_spells spells]
  cases header
  congr 1 <;> (try apply BitVec.eq_of_getLsbD_eq; intro i bound) <;>
    simp only [BitVec.getLsbD_append, BitVec.getLsbD_extractLsb', BitVec.getLsbD_ofBool] <;> grind

theorem Static.ofBytes_of_spells {descriptor : Static}
    (spells : Spells bytes 0 descriptor.toBytes) : Static.ofBytes bytes = descriptor := by
  obtain ⟨unit, low⟩ := words_of_spells spells
  rw [Static.ofBytes, unit, low]
  cases descriptor
  congr 1 <;> apply BitVec.eq_of_getLsbD_eq <;> intro i bound <;>
    simp only [BitVec.getLsbD_append, BitVec.getLsbD_extractLsb'] <;> grind

theorem BufferMode.ofBits_toBits (mode : BufferMode) : ofBits mode.toBits = mode := by
  cases mode <;> rfl

theorem Buffer.ofBytes_of_spells {descriptor : Buffer}
    (spells : Spells bytes 0 descriptor.toBytes) : Buffer.ofBytes bytes = descriptor := by
  obtain ⟨sizes, unit⟩ := spells.append
  obtain ⟨size, low⟩ := words_of_spells sizes
  have unit := word_of_spells unit
  have mode : (descriptor.addressMid ++ descriptor.sizeHigh ++ descriptor.addressHigh ++
      descriptor.mode.toBits).extractLsb' 0 2 = descriptor.mode.toBits :=
    BitVec.extractLsb'_append_eq_right
  change word bytes 8 = _ at unit
  rw [Buffer.ofBytes, size, low, unit, mode, BufferMode.ofBits_toBits]
  cases descriptor
  congr 1 <;> apply BitVec.eq_of_getLsbD_eq <;> intro i bound <;>
    simp only [BitVec.getLsbD_append, BitVec.getLsbD_extractLsb'] <;> grind

/-- Masking before a field cuts is without effect. -/
theorem setWidth_and_bits (value : U64) {n : ℕ} (small : n ≤ 64) :
    (value &&& bits n).setWidth n = value.setWidth n := by
  apply BitVec.eq_of_toNat_eq
  rw [BitVec.toNat_setWidth, BitVec.toNat_setWidth, and_bits_toNat value small, Nat.mod_mod]

/-- A static's descriptor holds the low 42 bits of an address. -/
theorem Static.address_make (index : BitVec 8) (address : U64) (size : BitVec 16) :
    (Static.make index address size).address = (address.setWidth 42).setWidth 64 := by
  simp only [make, Static.address, setWidth_and_bits _ (show 32 ≤ 64 by decide),
    setWidth_and_bits _ (show 4 ≤ 64 by decide), setWidth_and_bits _ (show 6 ≤ 64 by decide)]
  apply BitVec.eq_of_getLsbD_eq
  intro i bound
  simp only [BitVec.getLsbD_or, BitVec.getLsbD_shiftLeft, BitVec.getLsbD_setWidth,
    BitVec.getLsbD_ushiftRight]
  grind

/-- A buffer's descriptor holds the low 58 bits. -/
theorem Buffer.address_make (mode : BufferMode) (address size : U64) :
    (Buffer.make mode address size).address = (address.setWidth 58).setWidth 64 := by
  simp only [make, Buffer.address, setWidth_and_bits _ (show 32 ≤ 64 by decide),
    setWidth_and_bits _ (show 4 ≤ 64 by decide), setWidth_and_bits _ (show 22 ≤ 64 by decide)]
  apply BitVec.eq_of_getLsbD_eq
  intro i bound
  simp only [BitVec.getLsbD_or, BitVec.getLsbD_shiftLeft, BitVec.getLsbD_setWidth,
    BitVec.getLsbD_ushiftRight]
  grind

theorem setWidth_setWidth_iff (value : U64) {n : ℕ} (small : n ≤ 64) :
    (value.setWidth n).setWidth 64 = value ↔ value.toNat < 2 ^ n := by
  have power : 2 ^ n ≤ 2 ^ 64 := Nat.pow_le_pow_right (by decide) small
  have low : value.toNat % 2 ^ n < 2 ^ n := Nat.mod_lt _ (Nat.two_pow_pos n)
  rw [← BitVec.toNat_inj, BitVec.toNat_setWidth, BitVec.toNat_setWidth,
    Nat.mod_eq_of_lt (low.trans_le power), Nat.mod_eq_iff_lt (Nat.two_pow_pos n).ne']

theorem Static.address_make_iff (index : BitVec 8) (address : U64) (size : BitVec 16) :
    (Static.make index address size).address = address ↔ address.toNat < 2 ^ 42 := by
  rw [address_make, setWidth_setWidth_iff _ (by decide)]

theorem Buffer.address_make_iff (mode : BufferMode) (address size : U64) :
    (Buffer.make mode address size).address = address ↔ address.toNat < 2 ^ 58 := by
  rw [address_make, setWidth_setWidth_iff _ (by decide)]

theorem Buffer.size_make_iff (mode : BufferMode) (address size : U64) :
    (Buffer.make mode address size).size = size ↔ size.toNat < 2 ^ 36 := by
  rw [← BitVec.toNat_inj, size_make, Nat.mod_eq_iff_lt (by decide)]

end Hipc

/-- A type whose values are written in a number of bytes and are read back from them. -/
structure Codec (T : Type) where
  size : ℕ
  toBytes : T → List Byte
  ofBytes : (ℕ → Byte) → T
  small : size ≤ 0x10
  length : ∀ value, (toBytes value).length = size
  ofBytes_eq : ∀ value bytes, Spells bytes 0 (toBytes value) → ofBytes bytes = value

def byteCodec : Codec Byte :=
  ⟨1, fun byte => [byte], fun bytes => bytes 0, by decide, fun _ => rfl,
    fun _ _ spells => spells 0 Nat.one_pos⟩

def wordCodec : Codec U32 :=
  ⟨4, wordBytes, (word · 0), by decide, fun _ => rfl, fun _ _ => word_of_spells⟩

def halfCodec : Codec (BitVec 16) :=
  ⟨2, halfBytes, (half · 0), by decide, fun _ => rfl, fun _ _ => half_of_spells⟩

def staticCodec : Codec Static :=
  ⟨8, Static.toBytes, Static.ofBytes, by decide, fun _ => rfl,
    fun _ _ => Static.ofBytes_of_spells⟩

def bufferCodec : Codec Buffer :=
  ⟨12, Buffer.toBytes, Buffer.ofBytes, by decide, fun _ => rfl,
    fun _ _ => Buffer.ofBytes_of_spells⟩

/-! ## Values in the message buffer -/

section Places

variable {buffer : U64 → Byte}

theorem Spells.at_append {n : ℕ} {first second : List Byte}
    (spells : Spells (bytesAt buffer n) 0 (first ++ second)) :
    Spells (bytesAt buffer n) 0 first ∧ Spells (bytesAt buffer (n + first.length)) 0 second := by
  refine ⟨spells.append.1, fun i bound => ?_⟩
  have there := spells.append.2 i bound
  rw [← there, bytesAt, bytesAt]
  congr 2
  omega

theorem elementsAt_of_spells {T : Type} (codec : Codec T) {container : List T} {n : ℕ}
    (spells : Spells (bytesAt buffer n) 0 (container.flatMap codec.toBytes)) :
    elementsAt buffer codec.ofBytes n codec.size container.length = container := by
  induction container generalizing n with
  | nil => rfl
  | cons value rest ih =>
    rw [List.flatMap_cons] at spells
    obtain ⟨first, later⟩ := spells.at_append
    rw [codec.length] at later
    rw [List.length_cons, elementsAt, codec.ofBytes_eq value _ first, ih later]

end Places

end Hakkun.Sf
