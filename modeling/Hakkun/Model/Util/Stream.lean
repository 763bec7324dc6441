import Hakkun.Machine.Core.Run
import Hakkun.Model.Ro.RoModule

/-! # Streams over a buffer

Translated from `hk/util/Stream.h`. The buffer is what is behind each distance from `mBuffer`, a
`size` like the cursor; data that is written is given by its bytes, and data that is read comes out
as bytes. Every call notes which parts of the buffer it accessed. A failed check of a call that does
not return a result is an abort.
-/

namespace Hakkun.Util

open Ro

/-- `Stream<BufferType>`. -/
structure Stream where
  mSize : U64 := -1
  mCursor : U64 := 0
  buffer : U64 → Byte
  cIsReadOnly : Bool := false

/-- What a call returns. -/
inductive Reply where
  | success
  | outOfRange
  /-- `size` bytes that were read. -/
  | value (size : U64) (bytes : ℕ → Byte)
  | array (elements : List (ℕ → Byte))

/-- A part of the buffer that was read or written. -/
structure Access where
  start : U64
  size : U64
  deriving DecidableEq

structure Outcome where
  reply : Reply
  stream : Stream
  accessed : List Access := []

namespace Stream

def hasSize (stream : Stream) : Bool := stream.mSize != -1

/-- The bytes of a `size`, low byte first. -/
def sizeBytes (value : U64) : ℕ → Byte := fun i => BitVec.ofNat 8 (value.toNat / 256 ^ i)

/-- The `size` with given bytes. -/
def sizeOfBytes (bytes : ℕ → Byte) : U64 :=
  BitVec.ofNat 64 ((List.range 8).foldr (fun i above => (bytes i).toNat + 256 * above) 0)

/-- The bytes at the cursor. -/
def taken (stream : Stream) : ℕ → Byte := fun i => stream.buffer (stream.mCursor + BitVec.ofNat 64 i)

def checkReadOnly (stream : Stream) : Except String Unit :=
  if stream.cIsReadOnly = false then .ok ()
  else .error "hk::util::Stream: stream is read only"

def seek (stream : Stream) (cursor : U64) : Except String Outcome :=
  if stream.hasSize ∧ ¬ cursor ≤ stream.mSize then
    .error "hk::util::Stream::seek: out of range (%zu/%zu)"
  else .ok ⟨.success, { stream with mCursor := cursor }, []⟩

def trySeek (stream : Stream) (cursor : U64) : Outcome :=
  if stream.hasSize ∧ ¬ cursor ≤ stream.mSize then ⟨.outOfRange, stream, []⟩
  else ⟨.success, { stream with mCursor := cursor }, []⟩

/-- The copy into the buffer, and the advance. -/
def put (stream : Stream) (data : ℕ → Byte) (dataSize : U64) : Outcome :=
  ⟨.success, { stream with
    buffer := memcpy stream.buffer stream.mCursor data dataSize
    mCursor := stream.mCursor + dataSize }, [⟨stream.mCursor, dataSize⟩]⟩

def tryWrite (stream : Stream) (data : ℕ → Byte) (dataSize : U64) : Except String Outcome := do
  stream.checkReadOnly
  if stream.hasSize ∧ stream.mCursor + dataSize > stream.mSize then .ok ⟨.outOfRange, stream, []⟩
  else .ok (stream.put data dataSize)

def write (stream : Stream) (data : ℕ → Byte) (dataSize : U64) : Except String Outcome := do
  stream.checkReadOnly
  if stream.hasSize ∧ ¬ stream.mCursor + dataSize ≤ stream.mSize then
    .error "hk::util::Stream::write: out of range (%zu/%zu)"
  else .ok (stream.put data dataSize)

def tryWriteString (stream : Stream) (value : ℕ → Byte) (length : U64) : Except String Outcome := do
  let first ← stream.tryWrite (sizeBytes length) 8
  match first.reply with
  | .success =>
    let second ← first.stream.tryWrite value length
    .ok { second with accessed := first.accessed ++ second.accessed }
  | _ => .ok first

/-- The copy out of the buffer, and the advance. -/
def take (stream : Stream) (dataSize : U64) : Outcome :=
  ⟨.value dataSize stream.taken, { stream with mCursor := stream.mCursor + dataSize },
    [⟨stream.mCursor, dataSize⟩]⟩

def tryRead (stream : Stream) (dataSize : U64) : Outcome :=
  if stream.hasSize ∧ stream.mCursor + dataSize > stream.mSize then ⟨.outOfRange, stream, []⟩
  else stream.take dataSize

def read (stream : Stream) (dataSize : U64) : Except String Outcome :=
  if stream.hasSize ∧ ¬ stream.mCursor + dataSize ≤ stream.mSize then
    .error "hk::util::Stream::write: out of range (%zu/%zu)"
  else .ok (stream.take dataSize)

/-- The loop of `readArray` with the elements that are left, after some were read. -/
def readArrayLoop (elementSize : U64) : ℕ → Stream → List (ℕ → Byte) → List Access → Outcome
  | 0, stream, arr, accessed => ⟨.array arr, stream, accessed⟩
  | left + 1, stream, arr, accessed =>
    let next := stream.tryRead elementSize
    match next.reply with
    | .value _ bytes =>
      readArrayLoop elementSize left next.stream (arr ++ [bytes]) (accessed ++ next.accessed)
    | _ => ⟨.outOfRange, next.stream, accessed⟩

/-- `readArray<T, Capacity>` for a `T` of a size. -/
def readArray (stream : Stream) (elementSize : U64) (Capacity : U64) (amount : U64) : Outcome :=
  if ¬ amount ≤ Capacity then ⟨.outOfRange, stream, []⟩
  else readArrayLoop elementSize amount.toNat stream [] []

def readString (stream : Stream) (maxLen : U64) : Outcome :=
  let first := stream.tryRead 8
  match first.reply with
  | .value _ bytes =>
    let length := sizeOfBytes bytes
    if ¬ length ≤ maxLen then ⟨.outOfRange, first.stream, first.accessed⟩
    else
      let second := first.stream.tryRead length
      { second with accessed := first.accessed ++ second.accessed }
  | _ => first

inductive Call where
  | seek (cursor : U64)
  | trySeek (cursor : U64)
  | write (data : ℕ → Byte) (dataSize : U64)
  | tryWrite (data : ℕ → Byte) (dataSize : U64)
  | tryWriteString (value : ℕ → Byte) (length : U64)
  | tryRead (dataSize : U64)
  | read (dataSize : U64)
  | readArray (elementSize Capacity amount : U64)
  | readString (maxLen : U64)

/-- What a call does. -/
def perform (stream : Stream) : Call → Except String Outcome
  | .seek cursor => stream.seek cursor
  | .trySeek cursor => .ok (stream.trySeek cursor)
  | .write data dataSize => stream.write data dataSize
  | .tryWrite data dataSize => stream.tryWrite data dataSize
  | .tryWriteString value length => stream.tryWriteString value length
  | .tryRead dataSize => .ok (stream.tryRead dataSize)
  | .read dataSize => stream.read dataSize
  | .readArray elementSize Capacity amount => .ok (stream.readArray elementSize Capacity amount)
  | .readString maxLen => .ok (stream.readString maxLen)

/-- A call that does not abort. -/
def step (stream : Stream) (call : Call) : Option Stream :=
  match stream.perform call with
  | .ok outcome => some outcome.stream
  | .error _ => none

end Stream

end Hakkun.Util
