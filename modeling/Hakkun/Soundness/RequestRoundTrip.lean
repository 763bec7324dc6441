import Hakkun.Soundness.RequestImage

/-! # What requests convey

The header of a request announces its parts. The receiver finds each part by the counts of the
header and the sizes of the parts before it. Receive statics are announced too, but they are not
written, and behind the data words the message buffer is zero.
-/

namespace Hakkun.Sf

open Hipc Ro Util

/-! ## Decoding -/

/-- What a request is made of. -/
@[ext] structure Content where
  sendPid : Bool
  copyHandles : List U32
  moveHandles : List U32
  sendStatics : List (U64 × BitVec 16)
  sendBuffers : List (BufferMode × U64 × U64)
  receiveBuffers : List (BufferMode × U64 × U64)
  exchangeBuffers : List (BufferMode × U64 × U64)
  receiveStatics : List (U64 × BitVec 16)
  objects : List U32
  command : U32
  token : U32
  data : List Byte
  outPointerSizes : List (BitVec 16)
  deriving DecidableEq

/-- The descriptors are made from the addresses and the sizes that were given; the statics are
numbered in their order. -/
structure FullRequest.Holds (request : FullRequest) (content : Content) : Prop where
  sendPid : request.mSendPid = content.sendPid
  copyHandles : request.mHipcCopyHandles.elements = content.copyHandles
  moveHandles : request.mHipcMoveHandles.elements = content.moveHandles
  sendStatics : request.mHipcSendStatics.elements =
    content.sendStatics.mapIdx fun i given => .make (BitVec.ofNat 8 i) given.1 given.2
  sendBuffers : request.mHipcSendBuffers.elements =
    content.sendBuffers.map fun given => .make given.1 given.2.1 given.2.2
  receiveBuffers : request.mHipcReceiveBuffers.elements =
    content.receiveBuffers.map fun given => .make given.1 given.2.1 given.2.2
  exchangeBuffers : request.mHipcExchangeBuffers.elements =
    content.exchangeBuffers.map fun given => .make given.1 given.2.1 given.2.2
  receiveStatics : request.mHipcReceiveStatics.elements =
    content.receiveStatics.map fun given => .make given.1 given.2
  objects : request.mObjects.elements = content.objects
  command : request.mCommandId = content.command
  token : request.mToken = content.token
  data : request.mData = content.data
  outPointerSizes : request.mHipcOutPointerSizes.elements = content.outPointerSizes

namespace Content

section Decode

variable (buffer : U64 → Byte) (isDomain : Bool) (dataSize outPointerCount : ℕ)

def buffersEnd : ℕ :=
  staticsEnd buffer + 12 * (header buffer).sendBufferCount.toNat +
    12 * (header buffer).recvBufferCount.toNat + 12 * (header buffer).exchBufferCount.toNat

def domainStart : ℕ := (buffersEnd buffer + 15) / 16 * 16

/-- The count and the size that a domain's header has. -/
def objectCount : ℕ := if isDomain then (bytesAt buffer (domainStart buffer) 1).toNat else 0

def inDataSize : ℕ :=
  if isDomain then (half (bytesAt buffer (domainStart buffer)) 2).toNat - 16 else dataSize

def inHeaderStart : ℕ := domainStart buffer + if isDomain then 16 else 0

def inDataStart : ℕ := inHeaderStart buffer isDomain + 16

def objectsStart : ℕ :=
  (inDataStart buffer isDomain + inDataSize buffer isDomain dataSize + 3) / 4 * 4

def outPointersStart : ℕ :=
  (objectsStart buffer isDomain dataSize + 4 * objectCount buffer isDomain + 1) / 2 * 2

/-- A mode from 3 on announces descriptors. -/
def receiveStaticCount : ℕ := (header buffer).recvStaticMode.toNat - 2

/-- All parts are in the message buffer. -/
def Decodes : Prop :=
  outPointersStart buffer isDomain dataSize + 2 * outPointerCount ≤ 0x100 ∧
    (receiveStaticCount buffer = 0 ∨ extent buffer + 8 * receiveStaticCount buffer ≤ 0x100)

instance : Decidable (Decodes buffer isDomain dataSize outPointerCount) :=
  inferInstanceAs (Decidable (_ ∧ _))

/-- What the accessors of a buffer's descriptor tell. -/
def buffersAt (start count : ℕ) : List (BufferMode × U64 × U64) :=
  (elementsAt buffer Buffer.ofBytes start 12 count).map fun descriptor =>
    (descriptor.mode, descriptor.address, descriptor.size)

/-- What a receiver finds in the message buffer by the counts of its headers. It knows the size of
the data, if it is not told, and the number of sizes of pointers. -/
def decode : Option Content :=
  if Decodes buffer isDomain dataSize outPointerCount then some {
    sendPid := (header buffer).hasSpecialHeader && (specialHeader buffer).sendPid
    copyHandles := copyHandlesAt buffer
    moveHandles := moveHandlesAt buffer
    sendStatics := (elementsAt buffer Static.ofBytes (staticsStart buffer) 8
      (sendStaticCount buffer)).map fun descriptor => (descriptor.address, descriptor.size)
    sendBuffers := buffersAt buffer (staticsEnd buffer) (header buffer).sendBufferCount.toNat
    receiveBuffers := buffersAt buffer
      (staticsEnd buffer + 12 * (header buffer).sendBufferCount.toNat)
      (header buffer).recvBufferCount.toNat
    exchangeBuffers := buffersAt buffer
      (staticsEnd buffer + 12 * (header buffer).sendBufferCount.toNat +
        12 * (header buffer).recvBufferCount.toNat) (header buffer).exchBufferCount.toNat
    receiveStatics := (elementsAt buffer ReceiveStatic.ofBytes (extent buffer) 8
      (receiveStaticCount buffer)).map fun descriptor => (descriptor.address, descriptor.size)
    objects := elementsAt buffer (word · 0) (objectsStart buffer isDomain dataSize) 4
      (objectCount buffer isDomain)
    command := word (bytesAt buffer (inHeaderStart buffer isDomain)) 8
    token := if isDomain then word (bytesAt buffer (domainStart buffer)) 12
      else word (bytesAt buffer (inHeaderStart buffer isDomain)) 12
    data := elementsAt buffer (fun bytes => bytes 0) (inDataStart buffer isDomain) 1
      (inDataSize buffer isDomain dataSize)
    outPointerSizes := elementsAt buffer (half · 0) (outPointersStart buffer isDomain dataSize) 2
      outPointerCount }
  else none

end Decode

end Content

/-! ## What is decoded -/

namespace FullRequest

variable {request : FullRequest} {mObject : Option U32} {tag : Cmif.MessageTag}
variable {buffer : U64 → Byte}

/-- Each part of a request is at its place. -/
structure Laid (request : FullRequest) (mObject : Option U32) (tag : Cmif.MessageTag)
    (buffer : U64 → Byte) : Prop where
  header : Spells (bytesAt buffer 0) 0 (request.header mObject tag).toBytes
  special : Spells (bytesAt buffer 8) 0 request.special
  sendStatics : Spells (bytesAt buffer request.handlesEnd) 0
    (request.mHipcSendStatics.elements.flatMap staticCodec.toBytes)
  sendBuffers : Spells (bytesAt buffer (request.handlesEnd +
    8 * request.mHipcSendStatics.elements.length)) 0
    (request.mHipcSendBuffers.elements.flatMap bufferCodec.toBytes)
  receiveBuffers : Spells (bytesAt buffer (request.handlesEnd +
    8 * request.mHipcSendStatics.elements.length +
    12 * request.mHipcSendBuffers.elements.length)) 0
    (request.mHipcReceiveBuffers.elements.flatMap bufferCodec.toBytes)
  exchangeBuffers : Spells (bytesAt buffer (request.handlesEnd +
    8 * request.mHipcSendStatics.elements.length +
    12 * request.mHipcSendBuffers.elements.length +
    12 * request.mHipcReceiveBuffers.elements.length)) 0
    (request.mHipcExchangeBuffers.elements.flatMap bufferCodec.toBytes)
  domainPart : Spells (bytesAt buffer request.headersStart) 0 (request.domainPart mObject)
  inHeader : Spells (bytesAt buffer (request.inHeaderStart mObject)) 0
    (request.inHeader mObject).toBytes
  data : Spells (bytesAt buffer (request.dataStart mObject)) 0
    (request.mData.flatMap byteCodec.toBytes)
  objects : Spells (bytesAt buffer (request.objectsStart mObject)) 0
    ((request.objects mObject).flatMap wordCodec.toBytes)
  outPointerSizes : Spells (bytesAt buffer (request.outPointersStart mObject)) 0
    (request.mHipcOutPointerSizes.elements.flatMap halfCodec.toBytes)

theorem laid_image (memory : U64 → Byte) (fits : request.writtenEnd mObject ≤ 0x100) :
    Laid request mObject tag (filled memory (request.image mObject tag)) := by
  have all := spells_filled memory (length_image.trans_le fits :
    (request.image mObject tag).length ≤ 0x100)
  have statics := staticCodec.length_flatMap request.mHipcSendStatics.elements
  have sends := bufferCodec.length_flatMap request.mHipcSendBuffers.elements
  have receives := bufferCodec.length_flatMap request.mHipcReceiveBuffers.elements
  have exchanges := bufferCodec.length_flatMap request.mHipcExchangeBuffers.elements
  have descriptors := @descriptorsEnd_eq request mObject tag
  obtain ⟨header, all⟩ := all.at_append
  rw [length_header, Nat.zero_add] at all
  obtain ⟨special, all⟩ := all.at_append
  rw [length_special] at all
  obtain ⟨sendStatics, all⟩ := all.at_append
  rw [statics] at all
  obtain ⟨sendBuffers, all⟩ := all.at_append
  rw [sends] at all
  obtain ⟨receiveBuffers, all⟩ := all.at_append
  rw [receives] at all
  obtain ⟨exchangeBuffers, all⟩ := all.at_append
  rw [exchanges] at all
  obtain ⟨-, all⟩ := all.at_append
  change Spells (bytesAt _ (request.descriptorsEnd + _)) 0 _ at all
  rw [length_padding] at all
  obtain ⟨domainPart, all⟩ := all.at_append
  rw [length_domainPart] at all
  obtain ⟨inHeader, all⟩ := all.at_append
  rw [length_inHeader] at all
  obtain ⟨data, all⟩ := all.at_append
  rw [byteCodec.length_flatMap, show byteCodec.size = 1 from rfl, Nat.one_mul] at all
  obtain ⟨-, all⟩ := all.at_append
  change Spells (bytesAt _ (request.dataEnd mObject + _)) 0 _ at all
  rw [length_padding] at all
  obtain ⟨objects, all⟩ := all.at_append
  rw [wordCodec.length_flatMap] at all
  obtain ⟨-, all⟩ := all.at_append
  change Spells (bytesAt _ (request.objectsEnd mObject + _)) 0 _ at all
  rw [length_padding] at all
  exact ⟨header, special, sendStatics, sendBuffers, receiveBuffers, exchangeBuffers, domainPart,
    inHeader, data, objects, all⟩

theorem toNat_count {n : ℕ} (fits : n ≤ 8) : (BitVec.ofNat 4 n).toNat = n := by
  rw [BitVec.toNat_ofNat, Nat.mod_eq_of_lt (by omega)]

namespace Laid

variable (laid : Laid request mObject tag buffer)

include laid

theorem header_eq : Sf.header buffer = request.header mObject tag :=
  Header.ofBytes_of_spells laid.header

theorem hasSpecialHeader_eq : (Sf.header buffer).hasSpecialHeader = request.hasSpecialHeader := by
  rw [laid.header_eq]
  rfl

theorem special_eq (has : request.hasSpecialHeader = true) :
    Sf.specialHeader buffer = request.specialHeader := by
  have special := laid.special
  rw [FullRequest.special, if_pos has] at special
  exact SpecialHeader.ofBytes_of_spells special.at_append.1

theorem handlesStart_eq (has : request.hasSpecialHeader = true) :
    handlesStart buffer = 12 + if request.mSendPid then 8 else 0 := by
  rw [handlesStart, laid.hasSpecialHeader_eq, if_pos has, laid.special_eq has, specialHeader]
  cases request.mSendPid <;> rfl

theorem copyHandleCount_eq (has : request.hasSpecialHeader = true) :
    copyHandleCount buffer = request.mHipcCopyHandles.elements.length := by
  rw [copyHandleCount, laid.hasSpecialHeader_eq, if_pos has, laid.special_eq has]
  exact toNat_count request.mHipcCopyHandles.fits

theorem moveHandleCount_eq (has : request.hasSpecialHeader = true) :
    moveHandleCount buffer = request.mHipcMoveHandles.elements.length := by
  rw [moveHandleCount, laid.hasSpecialHeader_eq, if_pos has, laid.special_eq has]
  exact toNat_count request.mHipcMoveHandles.fits

omit laid in
/-- Without a special header there is nothing that it would announce. -/
theorem empty_of_no_special (none : request.hasSpecialHeader = false) :
    request.mSendPid = false ∧ request.mHipcCopyHandles.elements = [] ∧
      request.mHipcMoveHandles.elements = [] := by
  simpa [hasSpecialHeader, and_assoc] using none

theorem handles_eq : staticsStart buffer = request.handlesEnd ∧
    ((Sf.header buffer).hasSpecialHeader && (Sf.specialHeader buffer).sendPid) = request.mSendPid ∧
    copyHandlesAt buffer = request.mHipcCopyHandles.elements ∧
    moveHandlesAt buffer = request.mHipcMoveHandles.elements := by
  cases has : request.hasSpecialHeader with
  | true =>
    have start := laid.handlesStart_eq has
    have copies := laid.copyHandleCount_eq has
    have moves := laid.moveHandleCount_eq has
    have pidLength : (if request.mSendPid then List.replicate 8 (0 : Byte) else []).length =
        if request.mSendPid then 8 else 0 := by
      split <;> rfl
    have special := laid.special
    rw [FullRequest.special, if_pos has] at special
    obtain ⟨-, special⟩ := special.at_append
    obtain ⟨-, special⟩ := special.at_append
    rw [pidLength, show 8 + request.specialHeader.toBytes.length = 12 from rfl, ← start] at special
    obtain ⟨first, second⟩ := special.at_append
    rw [wordCodec.length_flatMap] at second
    refine ⟨?_, ?_, ?_, ?_⟩
    · rw [staticsStart, start, copies, moves, handlesEnd, if_pos has]
      ring
    · rw [laid.hasSpecialHeader_eq, has, laid.special_eq has]
      exact Bool.true_and _
    · rw [copyHandlesAt, copies]
      exact elementsAt_of_spells wordCodec first
    · rw [moveHandlesAt, copies, moves]
      exact elementsAt_of_spells wordCodec second
  | false =>
    obtain ⟨pid, copies, moves⟩ := empty_of_no_special has
    have none : (Sf.header buffer).hasSpecialHeader = false := laid.hasSpecialHeader_eq.trans has
    have noCopies : copyHandleCount buffer = 0 := by simp [copyHandleCount, none]
    have noMoves : moveHandleCount buffer = 0 := by simp [moveHandleCount, none]
    refine ⟨?_, ?_, ?_, ?_⟩
    · simp [staticsStart, handlesStart, handlesEnd, none, has, noCopies, noMoves]
    · rw [none, pid]
      rfl
    · rw [copyHandlesAt, noCopies, copies]
      rfl
    · rw [moveHandlesAt, noMoves, moves]
      rfl

theorem sendStaticCount_eq : sendStaticCount buffer = request.mHipcSendStatics.elements.length := by
  rw [sendStaticCount, laid.header_eq]
  exact toNat_count request.mHipcSendStatics.fits

theorem sendBufferCount_eq :
    (Sf.header buffer).sendBufferCount.toNat = request.mHipcSendBuffers.elements.length := by
  rw [laid.header_eq]
  exact toNat_count request.mHipcSendBuffers.fits

theorem recvBufferCount_eq :
    (Sf.header buffer).recvBufferCount.toNat = request.mHipcReceiveBuffers.elements.length := by
  rw [laid.header_eq]
  exact toNat_count request.mHipcReceiveBuffers.fits

theorem exchBufferCount_eq :
    (Sf.header buffer).exchBufferCount.toNat = request.mHipcExchangeBuffers.elements.length := by
  rw [laid.header_eq]
  exact toNat_count request.mHipcExchangeBuffers.fits

theorem receiveStaticCount_eq :
    Content.receiveStaticCount buffer = request.mHipcReceiveStatics.elements.length := by
  have few := request.mHipcReceiveStatics.fits
  rw [Content.receiveStaticCount, laid.header_eq, FullRequest.header]
  simp only
  split
  · rw [BitVec.toNat_ofNat]
    omega
  · rename_i none
    rw [not_not.mp none]
    rfl

theorem staticsEnd_eq : staticsEnd buffer =
    request.handlesEnd + 8 * request.mHipcSendStatics.elements.length := by
  rw [staticsEnd, laid.handles_eq.1, laid.sendStaticCount_eq]

theorem buffersEnd_eq : Content.buffersEnd buffer = request.descriptorsEnd := by
  rw [Content.buffersEnd, laid.staticsEnd_eq, laid.sendBufferCount_eq, laid.recvBufferCount_eq,
    laid.exchBufferCount_eq, descriptorsEnd]

theorem extent_eq (small : request.mData.length ≤ 0x100) :
    extent buffer = request.announcedEnd mObject := by
  have announced := @announcedEnd_eq request mObject tag small
  rw [← announced, ← laid.buffersEnd_eq, extent, Content.buffersEnd, dataWords, laid.header_eq]
  ring

theorem domainStart_eq : Content.domainStart buffer = request.headersStart := by
  rw [Content.domainStart, laid.buffersEnd_eq, headersStart]

theorem objectCount_eq :
    Content.objectCount buffer mObject.isSome = (request.objects mObject).length := by
  have few := request.mObjects.fits
  have domain := laid.domainPart
  rw [Content.objectCount, laid.domainStart_eq]
  cases mObject with
  | none => rfl
  | some objectId =>
    have count : bytesAt buffer request.headersStart (0 + 1) =
        BitVec.ofNat 8 request.mObjects.elements.length := domain 1 (show 1 < 16 by decide)
    rw [Nat.zero_add] at count
    refine (congrArg BitVec.toNat count).trans ?_
    rw [BitVec.toNat_ofNat, Nat.mod_eq_of_lt (by omega)]
    rfl

theorem inDataSize_eq (small : request.mData.length ≤ 0x100) :
    Content.inDataSize buffer mObject.isSome request.mData.length = request.mData.length := by
  have domain := laid.domainPart
  rw [Content.inDataSize, laid.domainStart_eq]
  cases mObject with
  | none => rfl
  | some objectId =>
    have size : half (bytesAt buffer request.headersStart) 2 = request.cmifDataSize :=
      half_of_spells domain.append.1.append.1.append.1.append.2
    change (half (bytesAt buffer request.headersStart) 2).toNat - 16 = _
    rw [size, cmifDataSize_toNat small, Nat.add_sub_cancel_left]

theorem inHeaderStart_eq :
    Content.inHeaderStart buffer mObject.isSome = request.inHeaderStart mObject := by
  rw [Content.inHeaderStart, laid.domainStart_eq, FullRequest.inHeaderStart]

theorem command_eq :
    word (bytesAt buffer (Content.inHeaderStart buffer mObject.isSome)) 8 = request.mCommandId := by
  rw [laid.inHeaderStart_eq]
  exact word_of_spells laid.inHeader.append.1.append.2

theorem token_eq : (if mObject.isSome then word (bytesAt buffer (Content.domainStart buffer)) 12
    else word (bytesAt buffer (Content.inHeaderStart buffer mObject.isSome)) 12) =
      request.mToken := by
  have domain := laid.domainPart
  have inHeader := laid.inHeader
  rw [laid.inHeaderStart_eq, laid.domainStart_eq]
  cases mObject with
  | none => exact word_of_spells inHeader.append.2
  | some objectId => exact word_of_spells domain.append.2

theorem dataStart_eq : Content.inDataStart buffer mObject.isSome = request.dataStart mObject := by
  rw [Content.inDataStart, laid.inHeaderStart_eq, FullRequest.dataStart]

theorem objectsStart_eq (small : request.mData.length ≤ 0x100) :
    Content.objectsStart buffer mObject.isSome request.mData.length =
      request.objectsStart mObject := by
  rw [Content.objectsStart, laid.dataStart_eq, laid.inDataSize_eq small, FullRequest.objectsStart,
    FullRequest.dataEnd]

theorem outPointersStart_eq (small : request.mData.length ≤ 0x100) :
    Content.outPointersStart buffer mObject.isSome request.mData.length =
      request.outPointersStart mObject := by
  rw [Content.outPointersStart, laid.objectsStart_eq small, laid.objectCount_eq,
    FullRequest.outPointersStart, FullRequest.objectsEnd]

end Laid

/-- There is room behind the data words for the receive statics. -/
def HasRoom (request : FullRequest) (mObject : Option U32) : Prop :=
  request.mHipcReceiveStatics.elements.length = 0 ∨
    request.announcedEnd mObject + 8 * request.mHipcReceiveStatics.elements.length ≤ 0x100

instance : Decidable (request.HasRoom mObject) := inferInstanceAs (Decidable (_ ∨ _))

/-- What the receiver of a request finds: no receive statics. -/
def conveyed (request : FullRequest) (mObject : Option U32) : Content where
  sendPid := request.mSendPid
  copyHandles := request.mHipcCopyHandles.elements
  moveHandles := request.mHipcMoveHandles.elements
  sendStatics := request.mHipcSendStatics.elements.map fun descriptor =>
    (descriptor.address, descriptor.size)
  sendBuffers := request.mHipcSendBuffers.elements.map fun descriptor =>
    (descriptor.mode, descriptor.address, descriptor.size)
  receiveBuffers := request.mHipcReceiveBuffers.elements.map fun descriptor =>
    (descriptor.mode, descriptor.address, descriptor.size)
  exchangeBuffers := request.mHipcExchangeBuffers.elements.map fun descriptor =>
    (descriptor.mode, descriptor.address, descriptor.size)
  receiveStatics := List.replicate request.mHipcReceiveStatics.elements.length (0, 0)
  objects := request.objects mObject
  command := request.mCommandId
  token := request.mToken
  data := request.mData
  outPointerSizes := request.mHipcOutPointerSizes.elements

theorem descriptorsEnd_mod : request.descriptorsEnd % 4 = 0 := by
  rw [descriptorsEnd, handlesEnd]
  split
  · split <;> omega
  · omega

/-- All that is written is in the announced data words. -/
theorem writtenEnd_le : request.writtenEnd mObject ≤ request.announcedEnd mObject := by
  have aligned := @descriptorsEnd_mod request
  rw [writtenEnd, outPointersStart, objectsEnd, objectsStart, dataEnd, dataStart,
    FullRequest.inHeaderStart, FullRequest.headersStart, announcedEnd, objects]
  cases mObject with
  | none =>
    change (_ + 4 * 0 + 1) / 2 * 2 + _ ≤ _
    simp only [Option.isSome_none, Bool.false_eq_true, if_false]
    omega
  | some objectId =>
    simp only [Option.isSome_some, if_true]
    omega

theorem data_le (fits : request.writtenEnd mObject ≤ 0x100) : request.mData.length ≤ 0x100 := by
  refine le_trans ?_ fits
  rw [writtenEnd, outPointersStart, objectsEnd, objectsStart, dataEnd]
  omega

theorem ReceiveStatic_ofBytes_zero {bytes : ℕ → Byte} (zero : ∀ i < 8, bytes i = 0) :
    ReceiveStatic.ofBytes bytes = ⟨0, 0, 0⟩ := by
  have low : word bytes 0 = 0 := by
    rw [word, zero _ (by decide), zero _ (by decide), zero _ (by decide), zero _ (by decide)]
    rfl
  have high : word bytes 4 = 0 := by
    rw [word, zero _ (by decide), zero _ (by decide), zero _ (by decide), zero _ (by decide)]
    rfl
  rw [ReceiveStatic.ofBytes, low, high]
  rfl

theorem elementsAt_zero {n count : ℕ} (zero : ∀ i < 8 * count, bytesAt buffer n i = 0) :
    elementsAt buffer ReceiveStatic.ofBytes n 8 count = List.replicate count ⟨0, 0, 0⟩ := by
  induction count generalizing n with
  | zero => rfl
  | succ count ih =>
    have first := ReceiveStatic_ofBytes_zero fun i (bound : i < 8) => zero i (by omega)
    have rest : ∀ i < 8 * count, bytesAt buffer (n + 8) i = 0 := by
      intro i bound
      rw [← zero (8 + i) (by omega), bytesAt, bytesAt, Nat.add_assoc]
    rw [elementsAt, first, ih rest, List.replicate_succ]

theorem Laid.decode_eq (laid : Laid request mObject tag buffer)
    (fits : request.writtenEnd mObject ≤ 0x100)
    (zero : request.HasRoom mObject → ∀ i < 8 * request.mHipcReceiveStatics.elements.length,
      bytesAt buffer (request.announcedEnd mObject) i = 0) :
    Content.decode buffer mObject.isSome request.mData.length
        request.mHipcOutPointerSizes.elements.length =
      if request.HasRoom mObject then some (request.conveyed mObject) else none := by
  have small := data_le fits
  have decodes : Content.Decodes buffer mObject.isSome request.mData.length
      request.mHipcOutPointerSizes.elements.length ↔ request.HasRoom mObject := by
    rw [Content.Decodes, laid.outPointersStart_eq small, laid.receiveStaticCount_eq,
      laid.extent_eq small]
    exact and_iff_right fits
  rw [Content.decode]
  by_cases room : request.HasRoom mObject
  · have buffers (container : List Buffer) (n : ℕ)
        (spells : Spells (bytesAt buffer n) 0 (container.flatMap bufferCodec.toBytes)) :
        Content.buffersAt buffer n container.length =
          container.map fun descriptor => (descriptor.mode, descriptor.address, descriptor.size) :=
      congrArg (List.map _) (elementsAt_of_spells bufferCodec spells)
    obtain ⟨statics, sendPid, copies, moves⟩ := laid.handles_eq
    have received : elementsAt buffer ReceiveStatic.ofBytes (request.announcedEnd mObject) 8
        request.mHipcReceiveStatics.elements.length = List.replicate _ ⟨0, 0, 0⟩ :=
      elementsAt_zero (zero room)
    rw [if_pos (decodes.mpr room), if_pos room, sendPid, copies, moves, statics,
      laid.sendStaticCount_eq, laid.staticsEnd_eq, laid.sendBufferCount_eq, laid.recvBufferCount_eq,
      laid.exchBufferCount_eq, laid.receiveStaticCount_eq, laid.extent_eq small, received,
      laid.objectsStart_eq small, laid.objectCount_eq, laid.command_eq, laid.token_eq,
      laid.dataStart_eq, laid.inDataSize_eq small, laid.outPointersStart_eq small,
      buffers _ _ laid.sendBuffers, buffers _ _ laid.receiveBuffers,
      buffers _ _ laid.exchangeBuffers]
    have sendStatics := elementsAt_of_spells staticCodec laid.sendStatics
    have objects := elementsAt_of_spells wordCodec laid.objects
    have data := elementsAt_of_spells byteCodec laid.data
    have outPointerSizes := elementsAt_of_spells halfCodec laid.outPointerSizes
    change elementsAt buffer Static.ofBytes _ 8 _ = _ at sendStatics
    change elementsAt buffer (word · 0) _ 4 _ = _ at objects
    change elementsAt buffer (fun bytes => bytes 0) _ 1 _ = _ at data
    change elementsAt buffer (half · 0) _ 2 _ = _ at outPointerSizes
    rw [sendStatics, objects, data, outPointerSizes, List.map_replicate]
    rfl
  · rw [if_neg (mt decodes.mp room), if_neg room]

/-! ## The result -/

/-- What is decoded is what was given, and all that was written is in the data words that the header
announces, or before them, and in the message buffer. -/
structure Conveys (content : Content) (isDomain : Bool) (writer : Writer) : Prop where
  decoded : Content.decode writer.stream.buffer isDomain content.data.length
    content.outPointerSizes.length = some content
  inside : ∀ access ∈ writer.accessed, Within writer.stream.buffer access

/-- The addresses and sizes fit in the descriptors, only a domain is sent objects, and the receive
statics are nothing but zeros for which there is room. -/
structure Conveyable (request : FullRequest) (mObject : Option U32) (content : Content) : Prop where
  sendStatics : ∀ given ∈ content.sendStatics, given.1.toNat < 2 ^ 42
  buffers : ∀ given ∈ content.sendBuffers ++ content.receiveBuffers ++ content.exchangeBuffers,
    given.2.1.toNat < 2 ^ 58 ∧ given.2.2.toNat < 2 ^ 36
  objects : mObject.isSome = true ∨ content.objects = []
  receiveStatics : ∀ given ∈ content.receiveStatics, given = (0, 0)
  room : request.HasRoom mObject

theorem map_eq_self_iff {T : Type} {f : T → T} {list : List T} :
    list.map f = list ↔ ∀ value ∈ list, f value = value := by
  conv_lhs => rhs; rw [← List.map_id list]
  exact List.map_inj_left

/-- A map that does not see the numbers of the elements. -/
theorem map_mapIdx_eq {S T U : Type} {number : ℕ → S → T} {f : T → U} {g : S → U}
    (same : ∀ i value, f (number i value) = g value) {list : List S} :
    (list.mapIdx number).map f = list.map g := by
  apply List.ext_getElem?
  intro i
  rw [List.getElem?_map, List.getElem?_map, List.getElem?_mapIdx, Option.map_map]
  exact congrArg (Option.map · _) (funext (same i))

section Given

variable {content : Content} (holds : request.Holds content)

include holds

theorem sendStatics_iff : (request.conveyed mObject).sendStatics = content.sendStatics ↔
    ∀ given ∈ content.sendStatics, given.1.toNat < 2 ^ 42 := by
  have cut : (request.conveyed mObject).sendStatics =
      content.sendStatics.map fun given => ((given.1.setWidth 42).setWidth 64, given.2) := by
    have made (i : ℕ) (given : U64 × BitVec 16) :
        ((Static.make (BitVec.ofNat 8 i) given.1 given.2).address,
          (Static.make (BitVec.ofNat 8 i) given.1 given.2).size) =
            ((given.1.setWidth 42).setWidth 64, given.2) :=
      Prod.ext (Static.address_make _ _ _) rfl
    rw [conveyed, holds.sendStatics]
    exact map_mapIdx_eq (f := fun descriptor : Static => (descriptor.address, descriptor.size)) made
  rw [cut, map_eq_self_iff]
  refine forall₂_congr fun given _ => ?_
  rw [Prod.ext_iff, setWidth_setWidth_iff _ (by decide)]
  exact and_iff_left rfl

omit holds in
theorem buffers_iff {container : List Buffer} {list : List (BufferMode × U64 × U64)}
    (made : container = list.map fun given => .make given.1 given.2.1 given.2.2) :
    (container.map fun descriptor => (descriptor.mode, descriptor.address, descriptor.size)) =
        list ↔ ∀ given ∈ list, given.2.1.toNat < 2 ^ 58 ∧ given.2.2.toNat < 2 ^ 36 := by
  rw [made, List.map_map, map_eq_self_iff]
  refine forall₂_congr fun given _ => ?_
  rw [Prod.ext_iff, Prod.ext_iff, ← Buffer.address_make_iff given.1 given.2.1 given.2.2,
    ← Buffer.size_make_iff given.1 given.2.1 given.2.2]
  exact and_iff_right rfl

theorem receiveStatics_iff : (request.conveyed mObject).receiveStatics = content.receiveStatics ↔
    ∀ given ∈ content.receiveStatics, given = (0, 0) := by
  rw [conveyed, holds.receiveStatics, List.length_map, eq_comm, List.eq_replicate_iff]
  exact and_iff_right rfl

theorem objects_iff : (request.conveyed mObject).objects = content.objects ↔
    mObject.isSome = true ∨ content.objects = [] := by
  rw [conveyed, objects, holds.objects]
  cases mObject with
  | none =>
    rw [Option.isSome_none]
    simp [eq_comm]
  | some objectId => simp

theorem conveyed_iff : (request.HasRoom mObject ∧ request.conveyed mObject = content) ↔
    request.Conveyable mObject content := by
  have sends := buffers_iff holds.sendBuffers
  have receives := buffers_iff holds.receiveBuffers
  have exchanges := buffers_iff holds.exchangeBuffers
  constructor
  · rintro ⟨room, same⟩
    have parts := Content.ext_iff.mp same
    obtain ⟨-, -, -, statics, send, receive, exchange, received, objects, -⟩ := parts
    refine ⟨(sendStatics_iff holds).mp statics, ?_, (objects_iff holds).mp objects,
      (receiveStatics_iff holds).mp received, room⟩
    intro given member
    rcases List.mem_append.mp member with member | member
    · rcases List.mem_append.mp member with member | member
      · exact sends.mp send given member
      · exact receives.mp receive given member
    · exact exchanges.mp exchange given member
  · rintro ⟨statics, buffers, objects, received, room⟩
    refine ⟨room, Content.ext holds.sendPid holds.copyHandles holds.moveHandles
      ((sendStatics_iff holds).mpr statics) (sends.mpr ?_) (receives.mpr ?_) (exchanges.mpr ?_)
      ((receiveStatics_iff holds).mpr received) ((objects_iff holds).mpr objects) holds.command
      holds.token holds.data holds.outPointerSizes⟩
    · intro given member
      exact buffers given (List.mem_append_left _ (List.mem_append_left _ member))
    · intro given member
      exact buffers given (List.mem_append_left _ (List.mem_append_right _ member))
    · exact fun given member => buffers given (List.mem_append_right _ member)

end Given

/-- What a receiver finds in the message buffer. -/
theorem decode_writeToTls {memory : U64 → Byte} {writer : Writer}
    (written : request.writeToTls mObject tag memory = some writer) :
    Content.decode writer.stream.buffer mObject.isSome request.mData.length
        request.mHipcOutPointerSizes.elements.length =
      if request.HasRoom mObject then some (request.conveyed mObject) else none := by
  obtain ⟨fits, accessed, rfl, -⟩ := writeToTls_eq written
  have laid : request.Laid mObject tag (filled memory (request.image mObject tag)) :=
    laid_image memory fits
  refine laid.decode_eq fits fun room i bound => ?_
  refine bytesAt_behind _ ?_ ?_
  · rw [length_image]
    exact writtenEnd_le.trans (Nat.le_add_right _ _)
  · rcases room with none | room
    · rw [none] at bound
      omega
    · omega

theorem within_writeToTls {memory : U64 → Byte} {writer : Writer}
    (written : request.writeToTls mObject tag memory = some writer) :
    ∀ access ∈ writer.accessed, Within writer.stream.buffer access := by
  obtain ⟨fits, accessed, rfl, inside⟩ := writeToTls_eq written
  intro access member
  refine ⟨(inside access member).trans fits, ?_⟩
  have announced : extent (filled memory (request.image mObject tag)) =
      request.announcedEnd mObject := (laid_image memory fits).extent_eq (data_le fits)
  exact (inside access member).trans (writtenEnd_le.trans announced.ge)

/-- A command with four bytes of data that receives into pointers. -/
def receiving (pointers : FixedVec ReceiveStatic 8) : FullRequest where
  mServerPointerSize := 0x500
  mCommandId := 3
  mHipcReceiveStatics := pointers
  mData := [1, 2, 3, 4]

def receivingContent (pointers : List (U64 × BitVec 16)) : Content where
  sendPid := false
  copyHandles := []
  moveHandles := []
  sendStatics := []
  sendBuffers := []
  receiveBuffers := []
  exchangeBuffers := []
  receiveStatics := pointers
  objects := []
  command := 3
  token := 0
  data := [1, 2, 3, 4]
  outPointerSizes := []

theorem holds_receiving {pointers : FixedVec ReceiveStatic 8} {given : List (U64 × BitVec 16)}
    (made : pointers.elements = given.map fun given => .make given.1 given.2) :
    (receiving pointers).Holds (receivingContent given) :=
  ⟨rfl, rfl, rfl, rfl, rfl, rfl, rfl, made, rfl, rfl, rfl, rfl, rfl⟩

end FullRequest

end Hakkun.Sf
