import Hakkun.Model.Container.FixedString
import Hakkun.Model.Util.Hash

/-! # Searching a string view

Translated from `hk/container/StringView.h`. A character of `StringView` is a byte, so that `memcmp`
compares the characters at the two pointers.
-/

namespace Hakkun.Container.StringView

open Util

variable (view : StringView CChar)

/-- The default constructor, a view of `cNullChar`. -/
def empty : StringView CChar := ⟨fun _ => 0, 0⟩

def startsWith (start : StringView CChar) : Bool :=
  decide (start.length ≤ view.length) &&
    chars view.data start.length.toNat == chars start.data start.length.toNat

/-- `operator+`. -/
def add (offs : U64) : StringView CChar :=
  if view.length ≤ offs then empty
  else ⟨fun i => view.data (offs.toNat + i), view.length - offs⟩

/-- The loop of `findIndex`, with the turns that are left before its bound. -/
def findIndexLoop (needle : StringView CChar) : (left : ℕ) → (curIdx : U64) → U64
  | 0, _ => -1
  | left + 1, curIdx =>
    if (view.add curIdx).startsWith needle then curIdx else findIndexLoop needle left (curIdx + 1)

def findIndex (needle : StringView CChar) : U64 :=
  if view.length < needle.length then -1
  else findIndexLoop view needle (view.length - needle.length).toNat 0

end Hakkun.Container.StringView
