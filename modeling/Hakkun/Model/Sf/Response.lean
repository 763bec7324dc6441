import Hakkun.Model.Sf.Request
import Hakkun.Model.Util.Stream

/-! # Replies

Translated from `Response::readFromTls` in `hk/sf/sf.h`, with the headers of `hk/sf/hipc.h` and
`hk/sf/cmif.h`. Bit fields stand in their unit from the low bit on. What is read is noted, and the
data of a reply is where it is in the message buffer. There is no result where the parse aborts.
-/

namespace Hakkun.Sf

open Hipc Ro Util

/-- `cTlsBufferSize`. -/
def cTlsBufferSize : U64 := 0x100

/-- The word with given bytes, low byte first. -/
def word (bytes : ℕ → Byte) (offset : ℕ) : U32 :=
  bytes (offset + 3) ++ bytes (offset + 2) ++ bytes (offset + 1) ++ bytes offset

namespace Hipc

/-- `hipc::Header`. -/
structure Header where
  tag : BitVec 16
  sendStaticCount : BitVec 4
  sendBufferCount : BitVec 4
  recvBufferCount : BitVec 4
  exchBufferCount : BitVec 4
  dataWords : BitVec 10
  recvStaticMode : BitVec 4
  recvListOffset : BitVec 11
  hasSpecialHeader : Bool

def Header.ofBytes (bytes : ℕ → Byte) : Header where
  tag := (word bytes 0).extractLsb' 0 16
  sendStaticCount := (word bytes 0).extractLsb' 16 4
  sendBufferCount := (word bytes 0).extractLsb' 20 4
  recvBufferCount := (word bytes 0).extractLsb' 24 4
  exchBufferCount := (word bytes 0).extractLsb' 28 4
  dataWords := (word bytes 4).extractLsb' 0 10
  recvStaticMode := (word bytes 4).extractLsb' 10 4
  recvListOffset := (word bytes 4).extractLsb' 20 11
  hasSpecialHeader := (word bytes 4).getLsbD 31

structure SpecialHeader where
  sendPid : Bool
  copyHandleCount : BitVec 4
  moveHandleCount : BitVec 4

def SpecialHeader.ofBytes (bytes : ℕ → Byte) : SpecialHeader where
  sendPid := (word bytes 0).getLsbD 0
  copyHandleCount := (word bytes 0).extractLsb' 1 4
  moveHandleCount := (word bytes 0).extractLsb' 5 4

def Static.ofBytes (bytes : ℕ → Byte) : Static where
  index := (word bytes 0).extractLsb' 0 6
  addressHigh := (word bytes 0).extractLsb' 6 6
  addressMid := (word bytes 0).extractLsb' 12 4
  size := (word bytes 0).extractLsb' 16 16
  addressLow := word bytes 4

end Hipc

/-- The stream over the message buffer, and the parts of it that were read. -/
structure Reader where
  stream : Stream
  accessed : List Access

namespace Reader

/-- A reader of `ipcMessageBuffer` with a content. -/
def ofTls (ipcMessageBuffer : U64 → Byte) : Reader :=
  ⟨{ mSize := cTlsBufferSize, buffer := ipcMessageBuffer }, []⟩

/-- `HK_UNWRAP(reader.read<T>())` for a `T` of a size. -/
def read (reader : Reader) (dataSize : U64) : Option ((ℕ → Byte) × Reader) :=
  let outcome := reader.stream.tryRead dataSize
  match outcome.reply with
  | .value _ bytes => some (bytes, ⟨outcome.stream, reader.accessed ++ outcome.accessed⟩)
  | _ => none

def seek (reader : Reader) (cursor : U64) : Option Reader :=
  match reader.stream.seek cursor with
  | .ok outcome => some { reader with stream := outcome.stream }
  | .error _ => none

/-- A loop that reads elements of a size and adds each to a vector. -/
def readEach {T : Type} (dataSize : U64) (ofBytes : (ℕ → Byte) → T) :
    ℕ → Reader → FixedVec T 8 → Option (FixedVec T 8 × Reader)
  | 0, reader, vec => some (vec, reader)
  | left + 1, reader, vec => do
    let (bytes, reader) ← reader.read dataSize
    let vec ← vec.add (ofBytes bytes)
    readEach dataSize ofBytes left reader vec

end Reader

structure Response where
  result : U32
  objects : FixedVec U32 8 := .empty
  hipcCopyHandles : FixedVec U32 8 := .empty
  hipcMoveHandles : FixedVec U32 8 := .empty
  hipcSendStatics : FixedVec Static 8 := .empty
  pid : Option U64 := none
  /-- The span, from the start of the message buffer on. -/
  data : Access

/-- `alignUp(from, 16)`. -/
def alignUp16 (from_ : U64) : U64 := (from_ + 15) &&& ~~~15

/-- The pid, when it is announced. -/
def readPid (sendPid : Bool) (reader : Reader) : Option (Option U64 × Reader) :=
  if sendPid then
    (reader.read 8).map fun (bytes, reader) => (some (Stream.sizeOfBytes bytes), reader)
  else some (none, reader)

/-- The special header with the pid, the copied and the moved handles. -/
def readSpecial (hasSpecialHeader : Bool) (reader : Reader) :
    Option (Option U64 × FixedVec U32 8 × FixedVec U32 8 × Reader) :=
  if hasSpecialHeader then do
    let (bytes, reader) ← reader.read 4
    let specialHeader := SpecialHeader.ofBytes bytes
    let (pid, reader) ← readPid specialHeader.sendPid reader
    let (copyHandles, reader) ←
      reader.readEach 4 (word · 0) specialHeader.copyHandleCount.toNat .empty
    let (moveHandles, reader) ←
      reader.readEach 4 (word · 0) specialHeader.moveHandleCount.toNat .empty
    some (pid, copyHandles, moveHandles, reader)
  else some (none, .empty, .empty, reader)

/-- The object count of a domain's header. -/
def readObjectCount (isDomain : Bool) (reader : Reader) : Option (U32 × Reader) :=
  if isDomain then (reader.read 16).map fun (bytes, reader) => (word bytes 0, reader)
  else some (0, reader)

/-- The words that are left after the headers of a reply; each subtraction is one of `size`. -/
def dataWordsLeft (isDomain : Bool) (dataWords : BitVec 10) (objectCount : U32) : U64 :=
  let left : U64 := dataWords.setWidth 64 - 4
  let left := if isDomain then left - 4 - objectCount.setWidth 64 else left
  left - 4

/-- `Response::readFromTls`; also what was read. -/
def Response.readFromTls (ipcMessageBuffer : U64 → Byte) (isDomain : Bool)
    (hardcodedDataBytes : U32) : Option (Response × List Access) := do
  let (bytes, reader) ← (Reader.ofTls ipcMessageBuffer).read 8
  let header := Header.ofBytes bytes
  let (pid, hipcCopyHandles, hipcMoveHandles, reader) ← readSpecial header.hasSpecialHeader reader
  let (hipcSendStatics, reader) ←
    reader.readEach 8 Static.ofBytes header.sendStaticCount.toNat .empty
  let reader ← reader.seek (alignUp16 reader.stream.mCursor)
  let (objectCount, reader) ← readObjectCount isDomain reader
  let (bytes, reader) ← reader.read 16
  let size := if hardcodedDataBytes ≠ 0 then hardcodedDataBytes.setWidth 64
    else dataWordsLeft isDomain header.dataWords objectCount * 4
  let data : Access := ⟨reader.stream.mCursor, size⟩
  let reader ← reader.seek (reader.stream.mCursor + size)
  let (objects, reader) ← reader.readEach 4 (word · 0) objectCount.toNat .empty
  some ({ result := word bytes 8, objects, hipcCopyHandles, hipcMoveHandles, hipcSendStatics, pid,
          data }, reader.accessed)

end Hakkun.Sf
