import Hakkun.Model.Services.Lm

/-! # Sizes of log packets

A number is written as groups of seven bits, the low ones first. The container has room for four of
them, so an encoding ends for numbers of at most 28 bits, and aborts for any other.
-/

namespace Hakkun.Lm

/-- The sum of the groups, the least significant one first. -/
def decode (bytes : List Byte) : ℕ := bytes.foldr (fun byte high => byte.toNat % 128 + 128 * high) 0

/-- Exactly the last byte has no continuation bit. -/
def Terminated (bytes : List Byte) : Prop :=
  ∃ groups last, bytes = groups ++ [last] ∧ (∀ byte ∈ groups, 128 ≤ byte.toNat) ∧ last.toNat < 128

/-- An encoding of a number. -/
def Encodes (bytes : List Byte) (n : ℕ) : Prop := Terminated bytes ∧ decode bytes = n

/-- A packet that has the size of its text, and that of its payload in its header. -/
def Announces (packet text : List Byte) : Prop :=
  ∃ (header : LogPacketHeader) (sizeBytes : List Byte),
    packet = header.bytes ++ [2] ++ sizeBytes ++ text ∧ Encodes sizeBytes text.length ∧
      header.payloadSize.toNat = 1 + sizeBytes.length + text.length

section

variable (value : U32)

theorem group_toNat : ((value &&& 0x7F).setWidth 8 : Byte).toNat = value.toNat % 128 := by
  rw [BitVec.toNat_setWidth, BitVec.toNat_and, show (0x7F : U32).toNat = 2 ^ 7 - 1 from rfl,
    Nat.and_two_pow_sub_one_eq_mod]
  omega

theorem continued_toNat :
    ((value &&& 0x7F).setWidth 8 ||| 0x80 : Byte).toNat = value.toNat % 128 + 128 := by
  have small : value.toNat % 128 < 2 ^ 7 := Nat.mod_lt _ (by decide)
  rw [BitVec.toNat_or, group_toNat, show (0x80 : Byte).toNat = 2 ^ 7 * 1 from rfl, Nat.or_comm,
    ← Nat.two_pow_add_eq_or_of_lt small]
  omega

theorem rest_toNat : (value >>> 7).toNat = value.toNat / 128 := by
  rw [BitVec.toNat_ushiftRight, Nat.shiftRight_eq_div_pow]

end

theorem encodeLoop_of_lt {room : ℕ} {value : U32} (positive : 0 < room)
    (small : value.toNat < 128 ^ room) :
    ∃ bytes, encodeLoop room value = some bytes ∧ bytes.length ≤ room ∧
      Encodes bytes value.toNat := by
  induction room generalizing value with
  | zero => omega
  | succ room ih =>
    have rest := rest_toNat value
    rw [encodeLoop]
    by_cases last : value >>> 7 = 0
    · have zero : value.toNat / 128 = 0 := by rw [← rest, last]; rfl
      have group := group_toNat value
      refine ⟨_, if_neg (not_not.mpr last), by simp, ⟨[], _, rfl, by simp, by omega⟩, ?_⟩
      rw [decode, List.foldr_cons, List.foldr_nil, group]
      omega
    · have more : value.toNat / 128 ≠ 0 := by
        rw [← rest]
        exact fun zero => last (BitVec.eq_of_toNat_eq zero)
      rw [Nat.pow_succ] at small
      have fits : (value >>> 7).toNat < 128 ^ room := by
        rw [rest]
        exact Nat.div_lt_of_lt_mul (Nat.mul_comm _ _ ▸ small)
      have positive : 0 < room := by
        rcases Nat.eq_zero_or_pos room with rfl | positive
        · omega
        · exact positive
      obtain ⟨bytes, encoded, short, ⟨groups, final, rfl, continued, terminal⟩, sum⟩ :=
        ih positive fits
      have group := continued_toNat value
      refine ⟨_ :: (groups ++ [final]), by rw [if_pos last, encoded]; rfl, Nat.succ_le_succ short,
        ⟨_ :: groups, final, rfl, ?_, terminal⟩, ?_⟩
      · exact List.forall_mem_cons.mpr ⟨by omega, continued⟩
      · change _ % 128 + 128 * decode (groups ++ [final]) = _
        rw [sum, rest, group]
        omega

theorem encodeLoop_of_le {room : ℕ} {value : U32} (large : 128 ^ room ≤ value.toNat) :
    encodeLoop room value = none := by
  induction room generalizing value with
  | zero => rfl
  | succ room ih =>
    have rest := rest_toNat value
    have above : 128 ^ room ≤ value.toNat / 128 :=
      (Nat.le_div_iff_mul_le (by decide)).mpr (Nat.pow_succ 128 room ▸ large)
    have positive := Nat.pow_pos (n := room) (show 0 < 128 by decide)
    have more : value >>> 7 ≠ 0 := by
      intro zero
      rw [zero] at rest
      change 0 = _ at rest
      omega
    rw [encodeLoop, if_pos more, ih (rest ▸ above)]
    rfl

theorem encodeUleb128_of_lt {value : U32} (small : value.toNat < 2 ^ 28) :
    ∃ bytes, encodeUleb128 value = some bytes ∧ bytes.length ≤ 4 ∧ Encodes bytes value.toNat :=
  encodeLoop_of_lt (by decide) (show value.toNat < 128 ^ 4 by omega)

theorem encodeUleb128_of_le {value : U32} (large : 2 ^ 28 ≤ value.toNat) :
    encodeUleb128 value = none :=
  encodeLoop_of_le (show 128 ^ 4 ≤ value.toNat by omega)

/-! ## Packets -/

theorem LogPacketHeader.length_bytes (header : LogPacketHeader) : header.bytes.length = 24 := by
  simp [LogPacketHeader.bytes, toBytes]

/-- What a packet announces is what stands between its header and its text. -/
theorem encodes_of_announces {header : LogPacketHeader} {sizeBytes text : List Byte}
    (announces : Announces (header.bytes ++ [2] ++ sizeBytes ++ text) text) :
    Encodes sizeBytes text.length := by
  obtain ⟨other, bytes, same, encodes, -⟩ := announces
  have parts := List.append_cancel_right same
  have width : (header.bytes ++ [2]).length = (other.bytes ++ [2]).length := by
    simp [LogPacketHeader.length_bytes]
  obtain ⟨-, rfl⟩ := List.append_inj parts width
  exact encodes

theorem announces_of_lt {text : List Byte} (small : text.length < 2 ^ 28) :
    ∃ packet, logData text = some packet ∧ Announces packet text := by
  have size : (BitVec.ofNat 32 text.length).toNat = text.length := by
    rw [BitVec.toNat_ofNat]
    omega
  have fits : (BitVec.ofNat 32 text.length).toNat < 2 ^ 28 := size.symm ▸ small
  obtain ⟨sizeBytes, given, few, encodes⟩ := encodeUleb128_of_lt fits
  rw [size] at encodes
  rw [logData, given]
  refine ⟨_, rfl, _, sizeBytes, rfl, encodes, ?_⟩
  rw [BitVec.toNat_ofNat]
  omega

theorem lt_of_announces {text packet : List Byte} (given : logData text = some packet)
    (announces : Announces packet text) : text.length < 2 ^ 28 := by
  obtain ⟨sizeBytes, encoded, rfl⟩ := Option.map_eq_some_iff.mp given
  have announced := (encodes_of_announces announces).2
  by_contra long
  rcases Nat.lt_or_ge (BitVec.ofNat 32 text.length).toNat (2 ^ 28) with small | large
  · obtain ⟨bytes, same, -, -, size⟩ := encodeUleb128_of_lt small
    obtain rfl := Option.some.inj (encoded.symm.trans same)
    omega
  · rw [encodeUleb128_of_le large] at encoded
    cases encoded

/-- A size is encoded, and a packet announces the size of its text, when it has at most 28 bits. -/
theorem encodes_iff (value : U32) (text : List Byte) :
    ((∃ bytes, encodeUleb128 value = some bytes ∧ Encodes bytes value.toNat) ↔
        value.toNat < 2 ^ 28) ∧
      ((∃ packet, logData text = some packet ∧ Announces packet text) ↔ text.length < 2 ^ 28) := by
  constructor
  · constructor
    · rintro ⟨bytes, given, -⟩
      by_contra large
      rw [encodeUleb128_of_le (Nat.le_of_not_lt large)] at given
      cases given
    · intro small
      obtain ⟨bytes, given, -, encodes⟩ := encodeUleb128_of_lt small
      exact ⟨bytes, given, encodes⟩
  · constructor
    · rintro ⟨packet, given, announces⟩
      exact lt_of_announces given announces
    · exact announces_of_lt

/-- The fifth byte of a number of 29 bits does not fit. -/
theorem not_encodes : ¬ ∃ bytes, encodeUleb128 0x10000000 = some bytes ∧
    Encodes bytes (0x10000000 : U32).toNat := by
  rintro ⟨bytes, given, -⟩
  rw [show encodeUleb128 0x10000000 = none by decide] at given
  cases given

end Hakkun.Lm
