import Hakkun.Machine.Core.Store
import Hakkun.Model.Core.Integer

/-! # The message of an abort

Translated from `abortImpl` and `setAbortMsg` of `hk/diag/diag.cpp`, as far as they handle the
message of the caller. A text is what the format and its arguments give in full; a write outside of
a buffer has no result.
-/

namespace Hakkun.Diag

open Machine

abbrev Byte := BitVec 8

def newline : Byte := 0x0a

/-- `vsnprintf` to a place in a buffer: what fits of the text and a terminator. It returns the
length of the whole text. -/
def vsnprintf (buffer : List Byte) (place size : ℕ) (text : List Byte) : Option (List Byte) × ℕ :=
  (if size = 0 then some buffer else store buffer place (text.take (size - 1) ++ [0]), text.length)

def cMsgBufSize : ℕ := 0x80

/-- `userMsgBuf` as `abortImpl` gives it to `setAbortMsg`. -/
def userMsgBuf (text : List Byte) : Option (List Byte) :=
  let userMsgBuf := List.replicate (cMsgBufSize + 1) 0
  (store userMsgBuf 0 [newline]).bind fun userMsgBuf =>
    let (userMsgBuf, length) := vsnprintf userMsgBuf 1 (cMsgBufSize - 1) text
    userMsgBuf.bind fun userMsgBuf => store userMsgBuf length [newline]

/-- `__builtin_strlen`, of a buffer that holds a terminator. -/
def strlen (msg : List Byte) : ℕ := msg.findIdx (· == 0)

/-- The distance of the strings that `setAbortMsg` writes to the string table. -/
def cSlotSize : ℕ := 0x100

/-- The string that `setAbortMsg` writes, and where in the module. -/
def setAbortMsg (strTab : U64) (msg : List Byte) (idx : ℕ) : U64 × List Byte :=
  (strTab + BitVec.ofNat 64 (cSlotSize * idx), msg.take (strlen msg + 1))

end Hakkun.Diag
