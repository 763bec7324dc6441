import Hakkun.Model.Core.Integer

/-! # Fixed strings

Translated from `hk/container/StringView.h`, `hk/container/FixedString.h` and
`SmallestUnsignedInteger` in `hk/prim/traits/Integer.h`. What is behind a pointer to characters is
what is at each distance from it. A fixed string keeps its length in the smallest integer that holds
the capacity, and works on itself through a view.
-/

namespace Hakkun.Container

/-- `StringViewBase<T>`. -/
structure StringView (T : Type) where
  data : ℕ → T
  length : U64

/-- A pointer to characters, with what `std::char_traits::length` finds behind it. -/
structure CString (T : Type) [Zero T] where
  data : ℕ → T
  length : U64
  isTerminated : data length.toNat = 0
  isFirst : ∀ i < length.toNat, data i ≠ 0

/-- The first characters behind a pointer. -/
def chars {T : Type} (data : ℕ → T) (amount : ℕ) : List T := (List.range amount).map data

/-- `util::copy` to a distance from a pointer. -/
def copyChars {T : Type} (dest : ℕ → T) (start : ℕ) (src : ℕ → T) (amount : ℕ) : ℕ → T := fun i =>
  if start ≤ i ∧ i < start + amount then src (i - start) else dest i

/-- `util::min`. -/
def minSize (first second : U64) : U64 := if first < second then first else second

/-- `MutableStringViewBase<T>`; the capacity includes the terminator. -/
structure MutableStringView (T : Type) where
  mData : ℕ → T
  mSize : U64
  mCapacity : U64

namespace MutableStringView

variable {T : Type} [Zero T] (view : MutableStringView T)

/-- The constructor from a buffer of some size. -/
def ofBuffer (buffer : CString T) (size : U64) : MutableStringView T :=
  ⟨buffer.data, buffer.length, size⟩

/-- The constructor from a buffer and a length. -/
def ofBufferLength (buffer : ℕ → T) (size length : U64) : MutableStringView T :=
  ⟨buffer, length, size⟩

def ensureNullTerminated : MutableStringView T :=
  let size := minSize view.mSize (view.mCapacity - 1)
  { view with mSize := size, mData := Function.update view.mData size.toNat 0 }

def truncate (newSize : U64) : Except String (MutableStringView T) :=
  if newSize ≤ view.mCapacity then .ok { view with mSize := newSize }.ensureNullTerminated
  else .error
    "hk::MutableStringViewBase<%s>::truncate(%zu): new size exceeds capacity (capacity: %zu)"

def append (other : StringView T) : MutableStringView T × Bool :=
  let desiredSize := view.mSize + other.length
  let newSize := minSize desiredSize (view.mCapacity - 1)
  let left := view.mCapacity - view.mSize - 1
  let mData := copyChars view.mData view.mSize.toNat other.data (minSize other.length left).toNat
  ({ view with mData, mSize := newSize }.ensureNullTerminated, desiredSize == newSize)

/-- `append` of one character. -/
def appendChar (value : T) : MutableStringView T × Bool :=
  if view.mCapacity - 1 ≤ view.mSize then (view, false)
  else
    let mData := Function.update view.mData view.mSize.toNat value
    ({ view with mData, mSize := view.mSize + 1 }.ensureNullTerminated, true)

end MutableStringView

/-- `util::calcSmallestWidth`; without a width there is no integer type. -/
def calcSmallestWidth (max : U64) : Option ℕ :=
  [8, 16, 32].find? fun width => isRepresentable width max 1

/-- `FixedStringBase<T, Capacity>` with a length of some width. -/
structure FixedString (T : Type) (Capacity : U64) (width : ℕ) where
  mLength : BitVec width
  mData : ℕ → T

namespace FixedString

variable {T : Type} [Zero T] {Capacity : U64} {width : ℕ} (string : FixedString T Capacity width)

def toMutableView : MutableStringView T := ⟨string.mData, string.mLength.setWidth 64, Capacity⟩

/-- What `withMutableView` leaves of a view. -/
def ofMutableView (view : MutableStringView T) : FixedString T Capacity width :=
  ⟨view.mSize.setWidth width, view.mData⟩

/-- The default constructor. -/
def empty : FixedString T Capacity width := ⟨0, fun _ => 0⟩

/-- The constructor from a pointer to characters. -/
def ofCString (data : CString T) : FixedString T Capacity width :=
  let mLength := (minSize data.length (Capacity - 1)).setWidth width
  ⟨mLength, copyChars (fun _ => 0) 0 data.data mLength.toNat⟩

/-- The copy constructor. -/
def ofFixedString (other : FixedString T Capacity width) : FixedString T Capacity width :=
  ⟨other.mLength, copyChars (fun _ => 0) 0 other.mData (minSize Capacity (other.mLength.setWidth 64)).toNat⟩

def truncate (newSize : U64) : Except String (FixedString T Capacity width) :=
  (string.toMutableView.truncate newSize).map ofMutableView

def append (other : StringView T) : FixedString T Capacity width × Bool :=
  (string.toMutableView.append other).map ofMutableView id

def appendChar (value : T) : FixedString T Capacity width × Bool :=
  (string.toMutableView.appendChar value).map ofMutableView id

/-- The constructor from a view. -/
def ofStringView (src : StringView T) : FixedString T Capacity width := (empty.append src).1

end FixedString

/-- A string that can be changed. -/
inductive Text (T : Type) (Capacity : U64) (width : ℕ) where
  | fixedString (string : FixedString T Capacity width)
  | mutableView (view : MutableStringView T)

/-- Every call goes on with the string that it makes or changes. -/
inductive TextCall (T : Type) [Zero T] where
  | empty
  | ofCString (data : CString T)
  | ofStringView (src : StringView T)
  | ofBuffer (buffer : CString T) (size : U64) (positive : 0 < size)
  | ofBufferLength (buffer : ℕ → T) (size length : U64) (positive : 0 < size)
  | copy
  | toMutableView
  | append (other : StringView T)
  | appendChar (value : T)
  | addAssign (other : StringView T)
  | truncate (newSize : U64)

namespace Text

variable {T : Type} [Zero T] {Capacity : U64} {width : ℕ}

/-- The string after a call that does not abort, and what an `append` returned. -/
def perform : Text T Capacity width → TextCall T → Option (Text T Capacity width × Option Bool)
  | _, .empty => some (.fixedString .empty, none)
  | _, .ofCString data => some (.fixedString (.ofCString data), none)
  | _, .ofStringView src => some (.fixedString (.ofStringView src), none)
  | _, .ofBuffer buffer size _ => some (.mutableView (.ofBuffer buffer size), none)
  | _, .ofBufferLength buffer size length _ =>
    some (.mutableView (.ofBufferLength buffer size length), none)
  | .fixedString string, .copy => some (.fixedString (.ofFixedString string), none)
  | .mutableView view, .copy => some (.mutableView view, none)
  | .fixedString string, .toMutableView => some (.mutableView string.toMutableView, none)
  | .mutableView view, .toMutableView => some (.mutableView view, none)
  | .fixedString string, .append other =>
    let (next, reply) := string.append other
    some (.fixedString next, some reply)
  | .mutableView view, .append other =>
    let (next, reply) := view.append other
    some (.mutableView next, some reply)
  | .fixedString string, .appendChar value =>
    let (next, reply) := string.appendChar value
    some (.fixedString next, some reply)
  | .mutableView view, .appendChar value =>
    let (next, reply) := view.appendChar value
    some (.mutableView next, some reply)
  | .fixedString string, .addAssign other => some (.fixedString (string.append other).1, none)
  | .mutableView view, .addAssign other => some (.mutableView (view.append other).1, none)
  | .fixedString string, .truncate newSize =>
    (string.truncate newSize).toOption.map fun next => (.fixedString next, none)
  | .mutableView view, .truncate newSize =>
    (view.truncate newSize).toOption.map fun next => (.mutableView next, none)

end Text

end Hakkun.Container
