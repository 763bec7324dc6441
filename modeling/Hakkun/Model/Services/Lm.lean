import Hakkun.Model.Core.Integer

/-! # The log service

Translated from `Logger` of `hk/services/lm.h`, up to the request that sends a packet. A `FixedVec`
aborts when it is full.
-/

namespace Hakkun.Lm

abbrev Byte := BitVec 8

/-- The loop of `encodeUleb128` when there is room for so many more bytes in the result. -/
def encodeLoop : ℕ → U32 → Option (List Byte)
  | 0, _ => none
  | room + 1, value =>
    let byte : Byte := (value &&& 0x7F).setWidth 8
    let value := value >>> 7
    if value ≠ 0 then (encodeLoop room value).map ((byte ||| 0x80) :: ·) else some [byte]

/-- `encodeUleb128`. -/
def encodeUleb128 (value : U32) : Option (List Byte) := encodeLoop 4 value

/-- The bytes of an integer in memory. -/
def toBytes {w : ℕ} (value : BitVec w) (size : ℕ) : List Byte :=
  (List.range size).map fun i => (value >>> (8 * i)).setWidth 8

structure LogPacketHeader where
  processId : U64 := 0
  threadId : U64 := 0
  flags : Byte := 0
  padding : Byte := 0
  severity : Byte
  verbosity : Byte := 0
  payloadSize : U32

def LogPacketHeader.bytes (header : LogPacketHeader) : List Byte :=
  toBytes header.processId 8 ++ toBytes header.threadId 8 ++
    [header.flags, header.padding, header.severity, header.verbosity] ++
      toBytes header.payloadSize 4

/-- The packet that `log` sends. -/
def logData (text : List Byte) : Option (List Byte) :=
  (encodeUleb128 (BitVec.ofNat 32 text.length)).map fun sizeBytes =>
    let header : LogPacketHeader :=
      { severity := 4
        payloadSize := BitVec.ofNat 32 (1 + sizeBytes.length + text.length) }
    header.bytes ++ [2] ++ sizeBytes ++ text

end Hakkun.Lm
