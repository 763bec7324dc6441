import Hakkun.Soundness.RequestBytes

/-! # The layout of requests

`writeToTls` puts the parts of a request one behind the other. Each write that does not abort adds
its bytes to those at the start of the message buffer, and an alignment adds zeros; so the whole
buffer is known, and where each part is.
-/

namespace Hakkun.Sf

open Hipc Ro Util

/-! ## The writes -/

section Writes

variable {memory : U64 → Byte}

/-- The cleared message buffer with bytes at its start. -/
def filled (memory : U64 → Byte) (image : List Byte) : U64 → Byte :=
  fun at_ => if at_.toNat < 0x100 then image.getD at_.toNat 0 else memory at_

/-- A writer after some bytes. -/
def writerAt (memory : U64 → Byte) (image : List Byte) (accessed : List Access) : Writer :=
  ⟨{ mSize := cTlsBufferSize, mCursor := BitVec.ofNat 64 image.length,
     buffer := filled memory image }, accessed⟩

theorem ofTls_eq (memory : U64 → Byte) : Writer.ofTls memory = writerAt memory [] [] := by
  have cleared : memset memory 0 cTlsBufferSize = filled memory [] := by
    funext at_
    rw [memset, filled, List.getD_nil]
    rfl
  rw [Writer.ofTls, cleared]
  rfl

theorem sized_writerAt (image : List Byte) (accessed : List Access) :
    (writerAt memory image accessed).stream.mSize ≠ -1 := by
  change cTlsBufferSize ≠ -1
  decide

/-- The copy of bytes behind the image. -/
theorem memcpy_filled {image bytes : List Byte} (fits : image.length + bytes.length ≤ 0x100) :
    memcpy (filled memory image) (BitVec.ofNat 64 image.length) (fun i => bytes.getD i 0)
      (BitVec.ofNat 64 bytes.length) = filled memory (image ++ bytes) := by
  funext at_
  have start : (BitVec.ofNat 64 image.length).toNat = image.length := toNat_ofNat_of_le (by omega)
  have size : (BitVec.ofNat 64 bytes.length).toNat = bytes.length := toNat_ofNat_of_le (by omega)
  have distance := BitVec.toNat_sub at_ (BitVec.ofNat 64 image.length)
  have bound := at_.isLt
  rw [start] at distance
  rw [memcpy, size]
  by_cases inside : (at_ - BitVec.ofNat 64 image.length).toNat < bytes.length
  · have place : at_.toNat = image.length + (at_ - BitVec.ofNat 64 image.length).toNat := by omega
    rw [if_pos inside, filled, if_pos (by omega), place,
      List.getD_append_right _ _ _ _ (Nat.le_add_right _ _), Nat.add_sub_cancel_left]
  · rw [if_neg inside, filled, filled]
    by_cases low : at_.toNat < 0x100
    · rw [if_pos low, if_pos low]
      rcases Nat.lt_or_ge at_.toNat image.length with before | after
      · rw [List.getD_append _ _ _ _ before]
      · rw [List.getD_eq_default _ _ after,
          List.getD_eq_default _ _ (by rw [List.length_append]; omega)]
    · rw [if_neg low, if_neg low]

/-- A step that writes bytes at a place, if it does not abort. -/
def Emits (n : ℕ) (step : Writer → Option Writer) (bytes : List Byte) : Prop :=
  ∀ memory image accessed writer, image.length = n → n ≤ 0x100 →
    step (writerAt memory image accessed) = some writer →
      n + bytes.length ≤ 0x100 ∧
        ∃ more, writer = writerAt memory (image ++ bytes) (accessed ++ more) ∧
          ∀ access ∈ more, access.start.toNat + access.size.toNat ≤ n + bytes.length

variable {n : ℕ}

theorem emits_some (n : ℕ) : Emits n some [] := by
  rintro memory image accessed writer - bound ran
  obtain rfl := Option.some.inj ran
  exact ⟨bound, [], by rw [List.append_nil, List.append_nil],
    fun access member => (List.not_mem_nil member).elim⟩

theorem Emits.bind {first second : Writer → Option Writer} {bytes others : List Byte}
    (emits : Emits n first bytes) (later : Emits (n + bytes.length) second others) :
    Emits n (fun writer => first writer >>= second) (bytes ++ others) := by
  intro memory image accessed writer length bound ran
  obtain ⟨between, ran, rest⟩ := Option.bind_eq_some_iff.mp ran
  obtain ⟨fits, more, rfl, inside⟩ := emits memory image accessed between length bound ran
  obtain ⟨fits, others, rfl, outside⟩ := later memory (image ++ bytes) (accessed ++ more) writer
    (by rw [List.length_append, length]) fits rest
  rw [List.length_append, ← Nat.add_assoc]
  refine ⟨fits, more ++ others, by rw [List.append_assoc, List.append_assoc], ?_⟩
  intro access member
  rcases List.mem_append.mp member with member | member
  · exact (inside access member).trans (Nat.le_add_right _ _)
  · exact outside access member

theorem emits_write (n : ℕ) {bytes : List Byte} (small : bytes.length ≤ 0x100) :
    Emits n (Writer.write bytes) bytes := by
  rintro memory image accessed writer rfl bound ran
  have start : (BitVec.ofNat 64 image.length).toNat = image.length := toNat_ofNat_of_le (by omega)
  have size : (BitVec.ofNat 64 bytes.length).toNat = bytes.length := toNat_ofNat_of_le (by omega)
  rw [Writer.write] at ran
  by_cases passes :
      (writerAt memory image accessed).stream.Passes (BitVec.ofNat 64 bytes.length)
  · have fits : image.length + bytes.length ≤ 0x100 := by
      have inside := BitVec.le_def.mp passes
      change (BitVec.ofNat 64 image.length + BitVec.ofNat 64 bytes.length).toNat ≤ 0x100 at inside
      rwa [← BitVec.ofNat_add, toNat_ofNat_of_le (by omega)] at inside
    rw [Stream.write_of_passes rfl passes] at ran
    obtain rfl := Option.some.inj ran
    refine ⟨fits, [⟨BitVec.ofNat 64 image.length, BitVec.ofNat 64 bytes.length⟩], ?_,
      fun access member => ?_⟩
    · rw [Stream.put, writerAt, writerAt, memcpy_filled fits, List.length_append, BitVec.ofNat_add]
    · obtain rfl := List.mem_singleton.mp member
      exact (congrArg₂ (· + ·) start size).le
  · rw [Stream.write_of_not_passes (sized_writerAt _ _) rfl passes] at ran
    cases ran

theorem emits_writeIterator {T : Type} (codec : Codec T) (container : List T) (n : ℕ) :
    Emits n (Writer.writeIterator codec.toBytes container) (container.flatMap codec.toBytes) := by
  induction container generalizing n with
  | nil => exact emits_some n
  | cons value rest ih =>
    rw [List.flatMap_cons]
    refine (emits_write n ?_).bind (ih _)
    rw [codec.length]
    exact codec.small.trans (by decide)

/-- The zeros in front of a multiple of a power of two. -/
def padding (n k : ℕ) : List Byte := List.replicate ((n + (2 ^ k - 1)) / 2 ^ k * 2 ^ k - n) 0

theorem toNat_alignUp_power {k : ℕ} (small : k ≤ 4) {cursor : ℕ} (inside : cursor ≤ 0x800) :
    (alignUp (BitVec.ofNat 64 cursor) (bit k)).toNat =
      (cursor + (2 ^ k - 1)) / 2 ^ k * 2 ^ k := by
  have power : 2 ^ k ≤ 2 ^ 4 := Nat.pow_le_pow_right (by decide) small
  have mask : bit k - 1 = bits k := (if_neg (show k ≠ cSystemRegisterWidth by
    rintro rfl
    exact absurd small (by decide))).symm
  rw [alignUp, mask, and_not_bits_toNat _ (by omega), BitVec.toNat_add,
    toNat_ofNat_of_le (by omega), bits_toNat (by omega), Nat.mod_eq_of_lt (by omega)]
  have split := Nat.div_add_mod (cursor + (2 ^ k - 1)) (2 ^ k)
  rw [Nat.mul_comm] at split
  omega

theorem length_padding {n k : ℕ} :
    n + (padding n k).length = (n + (2 ^ k - 1)) / 2 ^ k * 2 ^ k := by
  have split := Nat.div_add_mod (n + (2 ^ k - 1)) (2 ^ k)
  have rest := Nat.mod_lt (n + (2 ^ k - 1)) (Nat.two_pow_pos k)
  rw [Nat.mul_comm] at split
  rw [padding, List.length_replicate]
  omega

theorem filled_padding (memory : U64 → Byte) (image : List Byte) (n k : ℕ) :
    filled memory (image ++ padding n k) = filled memory image := by
  funext at_
  rw [filled, filled]
  congr 1
  rcases Nat.lt_or_ge at_.toNat image.length with before | after
  · rw [List.getD_append _ _ _ _ before]
  · rw [List.getD_append_right _ _ _ _ after, List.getD_eq_default _ _ after,
      padding,
      List.getD_eq_getElem?_getD, List.getElem?_getD_replicate_default_eq]

theorem emits_align (n : ℕ) {k : ℕ} (small : k ≤ 4) :
    Emits n (Writer.align (bit k)) (padding n k) := by
  rintro memory image accessed writer rfl bound ran
  rw [Writer.align, Writer.seek] at ran
  have target : (alignUp (writerAt memory image accessed).stream.mCursor (bit k)).toNat =
      image.length + (padding image.length k).length :=
    (toNat_alignUp_power small (bound.trans (by decide))).trans length_padding.symm
  by_cases fits : alignUp (writerAt memory image accessed).stream.mCursor (bit k) ≤
      (writerAt memory image accessed).stream.mSize
  · have inside : image.length + (padding image.length k).length ≤ 0x100 :=
      target ▸ BitVec.le_def.mp fits
    rw [Stream.seek_of_le fits] at ran
    obtain rfl := Option.some.inj ran
    refine ⟨inside, [], ?_, fun access member => (List.not_mem_nil member).elim⟩
    have cursor : alignUp (writerAt memory image accessed).stream.mCursor (bit k) =
        BitVec.ofNat 64 (image ++ padding image.length k).length := by
      rw [List.length_append, ← target, BitVec.ofNat_toNat, BitVec.setWidth_eq]
    have same : writerAt memory (image ++ padding image.length k) accessed =
        ⟨{ mSize := cTlsBufferSize,
           mCursor := BitVec.ofNat 64 (image ++ padding image.length k).length,
           buffer := filled memory image }, accessed⟩ := by
      rw [writerAt, filled_padding]
    rw [List.append_nil, same, ← cursor]
    rfl
  · rw [Stream.seek_of_not_le (sized_writerAt _ _) fits] at ran
    cases ran

/-- The bytes that are there are those of the image, and behind it zeros. -/
theorem spells_filled (memory : U64 → Byte) {image : List Byte} (fits : image.length ≤ 0x100) :
    Spells (bytesAt (filled memory image) 0) 0 image := by
  intro i bound
  have place : (BitVec.ofNat 64 (0 + (0 + i))).toNat = i := by
    rw [toNat_ofNat_of_le (by omega)]
    omega
  rw [bytesAt, filled, place, if_pos (by omega)]

theorem bytesAt_behind (memory : U64 → Byte) {image : List Byte} {n i : ℕ}
    (behind : image.length ≤ n + i) (bound : n + i < 0x100) :
    bytesAt (filled memory image) n i = 0 := by
  rw [bytesAt, filled, toNat_ofNat_of_le (by omega), if_pos bound, List.getD_eq_default _ _ behind]

end Writes

/-! ## The layout of a request -/

theorem Codec.length_flatMap {T : Type} (codec : Codec T) (container : List T) :
    (container.flatMap codec.toBytes).length = codec.size * container.length := by
  induction container with
  | nil => rfl
  | cons value rest ih =>
    rw [List.flatMap_cons, List.length_append, ih, codec.length, List.length_cons]
    ring

namespace FullRequest

variable (request : FullRequest) (mObject : Option U32) (tag : Cmif.MessageTag)

/-- Where the handles end, behind the special header if there is one. -/
def handlesEnd : ℕ :=
  8 + if request.hasSpecialHeader then
    4 + (if request.mSendPid then 8 else 0) + 4 * request.mHipcCopyHandles.elements.length +
      4 * request.mHipcMoveHandles.elements.length
  else 0

/-- Where the data words start. -/
def descriptorsEnd : ℕ :=
  request.handlesEnd + 8 * request.mHipcSendStatics.elements.length +
    12 * request.mHipcSendBuffers.elements.length +
    12 * request.mHipcReceiveBuffers.elements.length +
    12 * request.mHipcExchangeBuffers.elements.length

def headersStart : ℕ := (request.descriptorsEnd + 15) / 16 * 16

def inHeaderStart : ℕ := request.headersStart + if mObject.isSome then 16 else 0

def dataStart : ℕ := request.inHeaderStart mObject + 16

def dataEnd : ℕ := request.dataStart mObject + request.mData.length

def objectsStart : ℕ := (request.dataEnd mObject + 3) / 4 * 4

/-- The objects that are written. -/
def objects : List U32 := if mObject.isSome then request.mObjects.elements else []

def objectsEnd : ℕ := request.objectsStart mObject + 4 * (request.objects mObject).length

def outPointersStart : ℕ := (request.objectsEnd mObject + 1) / 2 * 2

def writtenEnd : ℕ :=
  request.outPointersStart mObject + 2 * request.mHipcOutPointerSizes.elements.length

/-- Where the data words end. -/
def announcedEnd : ℕ :=
  request.descriptorsEnd + ((32 + (if mObject.isSome then
    16 + 4 * request.mObjects.elements.length else 0) + request.mData.length + 1) / 2 * 2 +
    2 * request.mHipcOutPointerSizes.elements.length + 3) / 4 * 4

/-- What is written of the special header, the pid and the handles. -/
def special : List Byte :=
  if request.hasSpecialHeader then
    request.specialHeader.toBytes ++ ((if request.mSendPid then List.replicate 8 0 else []) ++
      (request.mHipcCopyHandles.elements.flatMap wordCodec.toBytes ++
        request.mHipcMoveHandles.elements.flatMap wordCodec.toBytes))
  else []

def domainPart : List Byte :=
  mObject.elim [] fun objectId => (request.domainInHeader objectId).toBytes

/-- All bytes from the start of the message buffer to the last one that is written. -/
def image : List Byte :=
  (request.header mObject tag).toBytes ++ (request.special ++
    (request.mHipcSendStatics.elements.flatMap staticCodec.toBytes ++
    (request.mHipcSendBuffers.elements.flatMap bufferCodec.toBytes ++
    (request.mHipcReceiveBuffers.elements.flatMap bufferCodec.toBytes ++
    (request.mHipcExchangeBuffers.elements.flatMap bufferCodec.toBytes ++
    (padding request.descriptorsEnd 4 ++ (request.domainPart mObject ++
    ((request.inHeader mObject).toBytes ++ (request.mData.flatMap byteCodec.toBytes ++
    (padding (request.dataEnd mObject) 2 ++
    ((request.objects mObject).flatMap wordCodec.toBytes ++
    (padding (request.objectsEnd mObject) 1 ++
    request.mHipcOutPointerSizes.elements.flatMap halfCodec.toBytes))))))))))))

variable {request mObject tag}

theorem length_special : 8 + request.special.length = request.handlesEnd := by
  rw [special, handlesEnd]
  split
  · rw [List.length_append, List.length_append, List.length_append, wordCodec.length_flatMap,
      wordCodec.length_flatMap]
    split
    · rw [List.length_replicate]
      change 8 + (4 + (8 + (4 * _ + 4 * _))) = _
      ring
    · change 8 + (4 + (0 + (4 * _ + 4 * _))) = _
      ring
  · rfl

theorem length_domainPart :
    (request.domainPart mObject).length = if mObject.isSome then 16 else 0 := by
  cases mObject <;> rfl

theorem emits_pid (n : ℕ) :
    Emits n request.writePid (if request.mSendPid then List.replicate 8 0 else []) := by
  unfold writePid
  cases request.mSendPid with
  | false => exact emits_some n
  | true => exact emits_write n (by decide)

theorem emits_special (n : ℕ) : Emits n request.writeSpecial request.special := by
  unfold writeSpecial special
  cases request.hasSpecialHeader with
  | false => exact emits_some n
  | true =>
    have header : request.specialHeader.toBytes.length ≤ 0x100 := show 4 ≤ 0x100 by decide
    exact (emits_write n header).bind ((emits_pid _).bind
      ((emits_writeIterator wordCodec _ _).bind (emits_writeIterator wordCodec _ _)))

theorem emits_domainInHeader (n : ℕ) :
    Emits n (request.writeDomainInHeader mObject) (request.domainPart mObject) := by
  cases mObject with
  | none => exact emits_some n
  | some objectId =>
    have header : (request.domainInHeader objectId).toBytes.length ≤ 0x100 :=
      show 16 ≤ 0x100 by decide
    exact emits_write n header

theorem emits_objects (n : ℕ) : Emits n (request.writeObjects mObject)
    ((request.objects mObject).flatMap wordCodec.toBytes) := by
  cases mObject with
  | none => exact emits_some n
  | some objectId => exact emits_writeIterator wordCodec _ n

theorem emits_alignTo {n place : ℕ} (same : n = place) {k : ℕ} (small : k ≤ 4) :
    Emits n (Writer.align (bit k)) (padding place k) := same ▸ emits_align n small

theorem length_header : (request.header mObject tag).toBytes.length = 8 := rfl

theorem length_inHeader : (request.inHeader mObject).toBytes.length = 16 := rfl

/-- Where the descriptors end, by the lengths of the parts before. -/
theorem descriptorsEnd_eq : 0 + (request.header mObject tag).toBytes.length +
    request.special.length +
    (request.mHipcSendStatics.elements.flatMap staticCodec.toBytes).length +
    (request.mHipcSendBuffers.elements.flatMap bufferCodec.toBytes).length +
    (request.mHipcReceiveBuffers.elements.flatMap bufferCodec.toBytes).length +
    (request.mHipcExchangeBuffers.elements.flatMap bufferCodec.toBytes).length =
      request.descriptorsEnd := by
  rw [length_header, Nat.zero_add, length_special, staticCodec.length_flatMap,
    bufferCodec.length_flatMap, bufferCodec.length_flatMap, bufferCodec.length_flatMap]
  rfl

theorem dataEnd_eq : request.descriptorsEnd + (padding request.descriptorsEnd 4).length +
    (request.domainPart mObject).length + (request.inHeader mObject).toBytes.length +
    (request.mData.flatMap byteCodec.toBytes).length = request.dataEnd mObject := by
  rw [length_padding, length_domainPart, length_inHeader, byteCodec.length_flatMap]
  exact congrArg (_ + ·) (Nat.one_mul _)

theorem objectsEnd_eq : request.dataEnd mObject + (padding (request.dataEnd mObject) 2).length +
    ((request.objects mObject).flatMap wordCodec.toBytes).length = request.objectsEnd mObject := by
  rw [length_padding, wordCodec.length_flatMap]
  rfl

theorem writtenEnd_eq : request.objectsEnd mObject +
    (padding (request.objectsEnd mObject) 1).length +
    (request.mHipcOutPointerSizes.elements.flatMap halfCodec.toBytes).length =
      request.writtenEnd mObject := by
  rw [length_padding, halfCodec.length_flatMap]
  rfl

theorem length_image : (request.image mObject tag).length = request.writtenEnd mObject := by
  have descriptors := @descriptorsEnd_eq request mObject tag
  have data := @dataEnd_eq request mObject
  have objects := @objectsEnd_eq request mObject
  have written := @writtenEnd_eq request mObject
  simp only [image, List.length_append]
  omega

/-- What a call that does not abort leaves in the message buffer. -/
theorem writeToTls_eq {memory : U64 → Byte} {writer : Writer}
    (ran : request.writeToTls mObject tag memory = some writer) :
    request.writtenEnd mObject ≤ 0x100 ∧ ∃ accessed,
      writer = writerAt memory (request.image mObject tag) accessed ∧
      ∀ access ∈ accessed,
        access.start.toNat + access.size.toNat ≤ request.writtenEnd mObject := by
  have header : (request.header mObject tag).toBytes.length ≤ 0x100 := show 8 ≤ 0x100 by decide
  have inHeader : (request.inHeader mObject).toBytes.length ≤ 0x100 := show 16 ≤ 0x100 by decide
  rw [writeToTls, ofTls_eq] at ran
  have done := ((emits_write 0 header).bind ((emits_special _).bind
    ((emits_writeIterator staticCodec _ _).bind ((emits_writeIterator bufferCodec _ _).bind
    ((emits_writeIterator bufferCodec _ _).bind ((emits_writeIterator bufferCodec _ _).bind
    ((emits_alignTo descriptorsEnd_eq (show 4 ≤ 4 by decide)).bind
    ((emits_domainInHeader _).bind ((emits_write _ inHeader).bind
    ((emits_writeIterator byteCodec _ _).bind
    ((emits_alignTo (by rw [descriptorsEnd_eq, dataEnd_eq]) (show 2 ≤ 4 by decide)).bind
    ((emits_objects _).bind
    ((emits_alignTo (by rw [descriptorsEnd_eq, dataEnd_eq, objectsEnd_eq])
      (show 1 ≤ 4 by decide)).bind
    (emits_writeIterator halfCodec _ _)))))))))))))) memory [] [] writer rfl (Nat.zero_le _) ran
  change 0 + (request.image mObject tag).length ≤ _ ∧ ∃ more, _ = writerAt memory
    ([] ++ request.image mObject tag) ([] ++ more) ∧ ∀ access ∈ more,
      _ ≤ 0 + (request.image mObject tag).length at done
  rw [length_image, Nat.zero_add] at done
  exact done

/-- `alignUp` at `u16`. -/
theorem alignUp_half {n k : ℕ} (small : n ≤ 0x800) (power : k ≤ 4) :
    (alignUp ((BitVec.ofNat 16 n).setWidth 64) (bit k)).setWidth 16 =
      BitVec.ofNat 16 ((n + (2 ^ k - 1)) / 2 ^ k * 2 ^ k) := by
  have wide : (BitVec.ofNat 16 n).setWidth 64 = BitVec.ofNat 64 n := by
    apply BitVec.eq_of_toNat_eq
    rw [BitVec.toNat_setWidth, BitVec.toNat_ofNat, BitVec.toNat_ofNat]
    omega
  apply BitVec.eq_of_toNat_eq
  rw [wide, BitVec.toNat_setWidth, toNat_alignUp_power power small, BitVec.toNat_ofNat]

theorem cmifDataSize_toNat (small : request.mData.length ≤ 0x100) :
    request.cmifDataSize.toNat = 16 + request.mData.length := by
  rw [cmifDataSize, BitVec.toNat_setWidth, BitVec.toNat_add, toNat_ofNat_of_le (by omega)]
  change (16 + _) % 2 ^ 64 % 2 ^ 16 = _
  omega

/-- The announced data words, as bytes. -/
theorem announcedEnd_eq (small : request.mData.length ≤ 0x100) :
    request.descriptorsEnd + 4 * (request.header mObject tag).dataWords.toNat =
      request.announcedEnd mObject := by
  have objects := request.mObjects.fits
  have pointers := request.mHipcOutPointerSizes.fits
  have data := cmifDataSize_toNat small
  have domain : (if mObject.isSome then (16 : BitVec 16) + 16 +
      BitVec.ofNat 16 (4 * request.mObjects.elements.length) else 16).toNat = 16 + if mObject.isSome then 16 + 4 * request.mObjects.elements.length else 0 := by
    split
    · rw [BitVec.toNat_add, BitVec.toNat_ofNat]
      change (32 + _ % 2 ^ 16) % 2 ^ 16 = _
      omega
    · rfl
  have sum : (if mObject.isSome then
      (16 : BitVec 16) + 16 + BitVec.ofNat 16 (4 * request.mObjects.elements.length) else 16) +
        request.cmifDataSize = BitVec.ofNat 16 (32 + (if mObject.isSome then
          16 + 4 * request.mObjects.elements.length else 0) + request.mData.length) := by
    apply BitVec.eq_of_toNat_eq
    rw [BitVec.toNat_add, domain, data, BitVec.toNat_ofNat]
    congr 1
    omega
  have bound : (if mObject.isSome then 16 + 4 * request.mObjects.elements.length else 0) ≤ 48 := by
    split <;> omega
  have size : request.hipcDataSize mObject = BitVec.ofNat 16 ((32 + (if mObject.isSome then
      16 + 4 * request.mObjects.elements.length else 0) + request.mData.length + 1) / 2 * 2 +
        2 * request.mHipcOutPointerSizes.elements.length) := by
    rw [hipcDataSize, sum]
    have aligned := alignUp_half (k := 1) (n := 32 + (if mObject.isSome then
      16 + 4 * request.mObjects.elements.length else 0) + request.mData.length) (by omega)
      (by decide)
    exact (congrArg (· + BitVec.ofNat 16 (2 * request.mHipcOutPointerSizes.elements.length))
      aligned).trans (BitVec.ofNat_add _ _).symm
  have words : (request.header mObject tag).dataWords = ((alignUp
      ((request.hipcDataSize mObject).setWidth 64) (bit 2)).setWidth 16 / 4).setWidth 10 := rfl
  rw [announcedEnd, words, size, alignUp_half (by omega) (by decide), BitVec.toNat_setWidth,
    BitVec.toNat_udiv, BitVec.toNat_ofNat]
  change _ + 4 * ((_ % 2 ^ 16) / 4 % 2 ^ 10) = _
  omega

end FullRequest

end Hakkun.Sf
