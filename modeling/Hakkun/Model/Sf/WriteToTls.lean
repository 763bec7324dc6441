import Hakkun.Model.Sf.Response
import Hakkun.Model.Sf.Utils

/-! # Writing requests

Translated from `Request::writeToTls` in `hk/sf/sf.h`, with the descriptors of `hk/sf/hipc.h` and
the headers of `hk/sf/cmif.h` as bytes. What is written is noted. There is no result where a check
of the stream aborts; the output for debugging is left out.
-/

namespace Hakkun.Sf

open Hipc Ro Util

/-- The bytes of a `u32`, low byte first. -/
def wordBytes (value : U32) : List Byte :=
  [value.extractLsb' 0 8, value.extractLsb' 8 8, value.extractLsb' 16 8, value.extractLsb' 24 8]

def halfBytes (value : BitVec 16) : List Byte := [value.extractLsb' 0 8, value.extractLsb' 8 8]

namespace Hipc

/-- The bit fields fill each unit from the low bit on. -/
def Header.toBytes (header : Header) : List Byte :=
  wordBytes (header.exchBufferCount ++ header.recvBufferCount ++ header.sendBufferCount ++
    header.sendStaticCount ++ header.tag) ++
  wordBytes (BitVec.ofBool header.hasSpecialHeader ++ header.recvListOffset ++ (0 : BitVec 6) ++
    header.recvStaticMode ++ header.dataWords)

def SpecialHeader.toBytes (header : SpecialHeader) : List Byte :=
  wordBytes ((0 : BitVec 23) ++ header.moveHandleCount ++ header.copyHandleCount ++
    BitVec.ofBool header.sendPid)

def Static.toBytes (descriptor : Static) : List Byte :=
  wordBytes (descriptor.size ++ descriptor.addressMid ++ descriptor.addressHigh ++
    descriptor.index) ++ wordBytes descriptor.addressLow

/-- `Static::address`. -/
def Static.address (descriptor : Static) : U64 :=
  descriptor.addressLow.setWidth 64 ||| (descriptor.addressMid.setWidth 64 <<< 32) |||
    (descriptor.addressHigh.setWidth 64 <<< 36)

def BufferMode.toBits : BufferMode → BitVec 2
  | .Normal => 0
  | .NonSecure => 1
  | .NonDevice => 3

def Buffer.toBytes (descriptor : Buffer) : List Byte :=
  wordBytes descriptor.sizeLow ++ wordBytes descriptor.addressLow ++
    wordBytes (descriptor.addressMid ++ descriptor.sizeHigh ++ descriptor.addressHigh ++
      descriptor.mode.toBits)

/-- `Buffer::address`. -/
def Buffer.address (descriptor : Buffer) : U64 :=
  descriptor.addressLow.setWidth 64 ||| (descriptor.addressMid.setWidth 64 <<< 32) |||
    (descriptor.addressHigh.setWidth 64 <<< 36)

/-- `ReceiveStatic::address`. -/
def ReceiveStatic.address (descriptor : ReceiveStatic) : U64 :=
  descriptor.addressLow.setWidth 64 ||| (descriptor.addressHigh.setWidth 64 <<< 32)

end Hipc

namespace Cmif

/-- `cmif::DomainTag`. -/
inductive DomainTag where
  | Request
  | Close
  deriving DecidableEq

def DomainTag.value : DomainTag → Byte
  | .Request => 1
  | .Close => 2

inductive MessageTag where
  | Close
  | Request
  | Control
  deriving DecidableEq

def MessageTag.value : MessageTag → BitVec 16
  | .Close => 2
  | .Request => 4
  | .Control => 5

def cInHeaderMagic : U32 := 0x49434653

structure InHeader where
  magic : U32
  version : U32
  command : U32
  token : U32

def InHeader.toBytes (header : InHeader) : List Byte :=
  wordBytes header.magic ++ wordBytes header.version ++ wordBytes header.command ++
    wordBytes header.token

structure DomainInHeader where
  tag : DomainTag
  objectCount : Byte
  dataSize : BitVec 16
  objectId : U32
  token : U32

/-- The padding is zero. -/
def DomainInHeader.toBytes (header : DomainInHeader) : List Byte :=
  [header.tag.value, header.objectCount] ++ halfBytes header.dataSize ++
    wordBytes header.objectId ++ wordBytes 0 ++ wordBytes header.token

end Cmif

/-- `std::memset`. -/
def memset (buffer : U64 → Byte) (value : Byte) (size : U64) : U64 → Byte :=
  fun at_ => if at_ < size then value else buffer at_

/-- The stream over the message buffer, and the parts of it that were written. -/
structure Writer where
  stream : Stream
  accessed : List Access

namespace Writer

/-- A writer of `ipcMessageBuffer`, which is cleared. -/
def ofTls (ipcMessageBuffer : U64 → Byte) : Writer :=
  ⟨{ mSize := cTlsBufferSize, buffer := memset ipcMessageBuffer 0 cTlsBufferSize }, []⟩

/-- `writer.write` of a value with given bytes. -/
def write (bytes : List Byte) (writer : Writer) : Option Writer :=
  match writer.stream.write (fun i => bytes.getD i 0) (BitVec.ofNat 64 bytes.length) with
  | .ok outcome => some ⟨outcome.stream, writer.accessed ++ outcome.accessed⟩
  | .error _ => none

def writeIterator {T : Type} (toBytes : T → List Byte) (container : List T) (writer : Writer) :
    Option Writer := container.foldlM (fun writer value => writer.write (toBytes value)) writer

def seek (cursor : U64) (writer : Writer) : Option Writer :=
  match writer.stream.seek cursor with
  | .ok outcome => some { writer with stream := outcome.stream }
  | .error _ => none

/-- `writer.seek(alignUp(writer.tell(), alignment))`. -/
def align (alignment : U64) (writer : Writer) : Option Writer :=
  writer.seek (alignUp writer.stream.mCursor alignment)

end Writer

/-- All fields of `Request` that `writeToTls` reads. -/
structure FullRequest extends Request where
  mSendPid : Bool := false
  mCommandId : U32
  mToken : U32 := 0
  mDomainTag : Cmif.DomainTag := .Request
  mObjects : FixedVec U32 8 := .empty
  mHipcCopyHandles : FixedVec U32 8 := .empty
  mHipcMoveHandles : FixedVec U32 8 := .empty
  mHipcExchangeBuffers : FixedVec Buffer 8 := .empty
  mData : List Byte := []

namespace FullRequest

variable (request : FullRequest) (mObject : Option U32)

def hasSpecialHeader : Bool :=
  request.mSendPid || !request.mHipcCopyHandles.elements.isEmpty ||
    !request.mHipcMoveHandles.elements.isEmpty

/-- `cmifDataSize`. -/
def cmifDataSize : BitVec 16 := (16 + BitVec.ofNat 64 request.mData.length).setWidth 16

/-- `hipcDataSize`. -/
def hipcDataSize : BitVec 16 :=
  let hipcDataSize : BitVec 16 := 16
  let hipcDataSize := if mObject.isSome then
    hipcDataSize + 16 + BitVec.ofNat 16 (4 * request.mObjects.elements.length) else hipcDataSize
  let hipcDataSize := hipcDataSize + request.cmifDataSize
  let hipcDataSize := (alignUp (hipcDataSize.setWidth 64) 2).setWidth 16
  hipcDataSize + BitVec.ofNat 16 (2 * request.mHipcOutPointerSizes.elements.length)

def header (tag : Cmif.MessageTag) : Header where
  tag := tag.value
  sendStaticCount := BitVec.ofNat 4 request.mHipcSendStatics.elements.length
  sendBufferCount := BitVec.ofNat 4 request.mHipcSendBuffers.elements.length
  recvBufferCount := BitVec.ofNat 4 request.mHipcReceiveBuffers.elements.length
  exchBufferCount := BitVec.ofNat 4 request.mHipcExchangeBuffers.elements.length
  dataWords :=
    (((alignUp ((request.hipcDataSize mObject).setWidth 64) 4).setWidth 16) / 4).setWidth 10
  recvStaticMode := if request.mHipcReceiveStatics.elements.length ≠ 0 then
    BitVec.ofNat 4 (2 + request.mHipcReceiveStatics.elements.length) else 0
  recvListOffset := 0
  hasSpecialHeader := request.hasSpecialHeader

def specialHeader : SpecialHeader where
  sendPid := request.mSendPid
  copyHandleCount := BitVec.ofNat 4 request.mHipcCopyHandles.elements.length
  moveHandleCount := BitVec.ofNat 4 request.mHipcMoveHandles.elements.length

def domainInHeader (objectId : U32) : Cmif.DomainInHeader where
  tag := request.mDomainTag
  objectCount := BitVec.ofNat 8 request.mObjects.elements.length
  dataSize := request.cmifDataSize
  objectId := objectId
  token := request.mToken

def inHeader : Cmif.InHeader where
  magic := Cmif.cInHeaderMagic
  version := 0
  command := request.mCommandId
  token := if mObject.isSome then 0 else request.mToken

def writePid (writer : Writer) : Option Writer :=
  if request.mSendPid then writer.write (List.replicate 8 0) else some writer

/-- The special header with the pid, the copied and the moved handles. -/
def writeSpecial (writer : Writer) : Option Writer :=
  if request.hasSpecialHeader then do
    let writer ← writer.write request.specialHeader.toBytes
    let writer ← request.writePid writer
    let writer ← writer.writeIterator wordBytes request.mHipcCopyHandles.elements
    writer.writeIterator wordBytes request.mHipcMoveHandles.elements
  else some writer

def writeDomainInHeader (writer : Writer) : Option Writer :=
  match mObject with
  | some objectId => writer.write (request.domainInHeader objectId).toBytes
  | none => some writer

def writeObjects (writer : Writer) : Option Writer :=
  if mObject.isSome then writer.writeIterator wordBytes request.mObjects.elements else some writer

/-- `writeToTls` for a service with an object or none. -/
def writeToTls (tag : Cmif.MessageTag) (ipcMessageBuffer : U64 → Byte) : Option Writer := do
  let writer ← (Writer.ofTls ipcMessageBuffer).write (request.header mObject tag).toBytes
  let writer ← request.writeSpecial writer
  let writer ← writer.writeIterator Static.toBytes request.mHipcSendStatics.elements
  let writer ← writer.writeIterator Buffer.toBytes request.mHipcSendBuffers.elements
  let writer ← writer.writeIterator Buffer.toBytes request.mHipcReceiveBuffers.elements
  let writer ← writer.writeIterator Buffer.toBytes request.mHipcExchangeBuffers.elements
  let writer ← writer.align 16
  let writer ← request.writeDomainInHeader mObject writer
  let writer ← writer.write (request.inHeader mObject).toBytes
  let writer ← writer.writeIterator (fun byte => [byte]) request.mData
  let writer ← writer.align 4
  let writer ← request.writeObjects mObject writer
  let writer ← writer.align 2
  writer.writeIterator halfBytes request.mHipcOutPointerSizes.elements

end FullRequest

end Hakkun.Sf
