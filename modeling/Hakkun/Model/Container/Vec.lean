import Hakkun.Model.Util.Construct
import Mathlib.Algebra.Group.Nat.Defs

/-! # Vectors

Translated from `hk/prim/VecOperations.h`, `hk/prim/SpanOperations.h`, `hk/container/Vec.h`,
`FixedVec.h` and `VecSpan.h`. A vector is a block, a size and a capacity; a `Vec` obtains its block
from the allocator and gets a larger one when it grows. `none` is an abort.
-/

namespace Hakkun.Container

open Machine Util

/-- The storage of a vector: in the object, in someone else's array, or on the heap. -/
inductive Storage where
  | fixedVec
  | vecSpan
  | vec
  deriving DecidableEq

structure Vec where
  storage : Storage
  mData : ℕ := 0
  mSize : ℕ := 0
  mCapacity : ℕ := 0
  deriving DecidableEq

namespace Vec

/-- `getData() + index`. -/
def element (vec : Vec) (index : ℕ) : Address := (vec.mData, index)

/-- The conversion to `Span<const T>`. -/
def span {T : Type} (vec : Vec) : Span T := ⟨fun i => .element (vec.element i), vec.mSize⟩

variable {T : Type} (type : ObjectType T) (memory : Memory T) (vec : Vec)

/-- `SpanOperations::move`. -/
def move (dstIdx srcIdx amount : ℕ) : Option (Memory T) :=
  if dstIdx = srcIdx ∨ amount = 0 then some memory
  else if dstIdx < vec.mSize ∧ srcIdx < vec.mSize ∧ dstIdx + (amount - 1) < vec.mSize ∧
      srcIdx + (amount - 1) < vec.mSize then
    some (constructMoveOverlapping type memory (vec.element dstIdx) (vec.element srcIdx) amount)
  else none

namespace Base

/-- `VecOperationsBase::add`, `emplace`. -/
def add (value : Reference T) (rvalue : Bool) : Option (Memory T × Vec) :=
  if vec.mSize < vec.mCapacity then
    some (constructAt type memory (vec.element vec.mSize) value rvalue,
      { vec with mSize := vec.mSize + 1 })
  else none

/-- `VecOperationsBase::insert`, `emplaceAt`. -/
def insert (value : Reference T) (rvalue : Bool) (index : ℕ) : Option (Memory T × Vec) :=
  if vec.mSize < vec.mCapacity ∧ index ≤ vec.mSize then
    let vec := { vec with mSize := vec.mSize + 1 }
    (vec.move type memory (index + 1) index (vec.mSize - 1 - index)).map fun memory =>
      (constructAt type memory (vec.element index) value rvalue, vec)
  else none

/-- `VecOperationsBase::append`. -/
def append (data : Span T) : Option (Memory T × Vec) :=
  if vec.mSize + data.size ≤ vec.mCapacity then
    some (constructCopy type memory (vec.element vec.mSize) data.data data.size,
      { vec with mSize := vec.mSize + data.size })
  else none

/-- `VecOperationsBase::remove`, and the value it returns. -/
def remove (index : ℕ) : Option (Option T × Memory T × Vec) :=
  if index < vec.mSize then
    let removedValue := memory.read (vec.element index)
    let memory := (memory.touch (vec.element index)).retire type (vec.element index)
    let memory := memory.destroy type (vec.element index)
    let moved :=
      if index < vec.mSize - 1 then vec.move type memory index (index + 1) (vec.mSize - index - 1)
      else some memory
    moved.map fun memory => (removedValue, memory, { vec with mSize := vec.mSize - 1 })
  else none

/-- `VecOperationsBase::popBack`. -/
def popBack : Option (Option T × Memory T × Vec) :=
  if 0 < vec.mSize then remove type memory vec (vec.mSize - 1) else none

/-- `VecOperationsBase::popFront`. -/
def popFront : Option (Option T × Memory T × Vec) :=
  if 0 < vec.mSize then remove type memory vec 0 else none

/-- `VecOperationsBase::extend`. -/
def extend (newSize : ℕ) (extendValue : Reference T) : Option (Memory T × Vec) :=
  if vec.mSize ≤ newSize ∧ newSize ≤ vec.mCapacity then
    some (fill type memory (vec.element vec.mSize) (newSize - vec.mSize) extendValue,
      { vec with mSize := newSize })
  else none

/-- `VecOperationsBase::truncate`. -/
def truncate (newSize : ℕ) : Option (Memory T × Vec) :=
  if newSize ≤ vec.mSize then
    some (destroy type memory (vec.element newSize) (vec.mSize - newSize),
      { vec with mSize := newSize })
  else none

/-- `VecOperationsBase::resize`. -/
def resize (newSize : ℕ) (extendValue : Reference T) : Option (Memory T × Vec) :=
  if vec.mSize = newSize then some (memory, vec)
  else if newSize < vec.mSize then truncate type memory vec newSize
  else extend type memory vec newSize extendValue

/-- `VecOperationsBase::clear`. -/
def clear : Memory T × Vec :=
  (destroy type memory (vec.element 0) vec.mSize, { vec with mSize := 0 })

end Base

variable (grants : ℕ → ℕ → Bool)

/-- `VecStorage::allocate`; the allocator decides by the number of blocks so far and the bytes. -/
def allocate (size capacity : ℕ) : Option (ℕ × Memory T) :=
  let capacity := max size capacity
  let bytes := capacity * type.sizeOf % 2 ^ 64
  if grants memory.blocks.length bytes then some (memory.allocate (bytes / type.sizeOf)) else none

/-- `VecStorage::free`. -/
def free : Memory T := if vec.mData = 0 then memory else memory.free vec.mData

/-- The part of `reserve` that moves the elements to the new block. -/
def relocate (newData : ℕ) : Memory T :=
  let memory := constructMove type memory (newData, 0) (vec.element 0) vec.mSize
  let memory := destroy type memory (vec.element 0) vec.mSize
  free memory vec

/-- `VecOperationsOnHeap::reserve`. -/
def reserve (capacity : ℕ) : Option (Memory T × Vec) :=
  if capacity ≤ vec.mCapacity then some (memory, vec)
  else (allocate type memory grants vec.mSize capacity).map fun (newData, memory) =>
    (relocate type memory vec newData, { vec with mData := newData, mCapacity := capacity })

/-- What the growing operations of `VecOperationsOnHeap` do first. -/
def grow (capacity : ℕ) : Option (Memory T × Vec) :=
  match vec.storage with
  | .vec => reserve type memory vec grants capacity
  | _ => some (memory, vec)

def add (value : Reference T) (rvalue : Bool) : Option (Memory T × Vec) := do
  let (memory, vec) ← grow type memory vec grants (vec.mSize + 1)
  Base.add type memory vec value rvalue

def insert (value : Reference T) (rvalue : Bool) (index : ℕ) : Option (Memory T × Vec) := do
  let (memory, vec) ← grow type memory vec grants (vec.mSize + 1)
  Base.insert type memory vec value rvalue index

def emplaceAt (index : ℕ) (value : Reference T) (rvalue : Bool) : Option (Memory T × Vec) :=
  insert type memory vec grants value rvalue index

def pushFront (value : Reference T) (rvalue : Bool) : Option (Memory T × Vec) :=
  insert type memory vec grants value rvalue 0

def append (data : Span T) : Option (Memory T × Vec) := do
  let (memory, vec) ← grow type memory vec grants (vec.mSize + data.size)
  Base.append type memory vec data

def extend (newSize : ℕ) (extendValue : Reference T) : Option (Memory T × Vec) := do
  let (memory, vec) ← grow type memory vec grants newSize
  Base.extend type memory vec newSize extendValue

def resize (newSize : ℕ) (extendValue : Reference T) : Option (Memory T × Vec) := do
  let (memory, vec) ← grow type memory vec grants newSize
  Base.resize type memory vec newSize extendValue

end Vec

/-- A value argument, or a reference to an element of a vector. -/
inductive Operand (Var T : Type) where
  | value (value : T)
  | element (var : Var) (index : ℕ)

/-- A span argument. -/
inductive SpanOperand (Var T : Type) where
  | values (values : List T)
  | elements (var : Var) (start count : ℕ)

/-- An operation on one vector. -/
inductive Operation (Var T : Type) where
  | add (value : Operand Var T) (rvalue : Bool)
  | insert (value : Operand Var T) (rvalue : Bool) (index : ℕ)
  | emplaceAt (index : ℕ) (value : Operand Var T) (rvalue : Bool)
  | pushFront (value : Operand Var T) (rvalue : Bool)
  | append (data : SpanOperand Var T)
  | remove (index : ℕ)
  | popBack
  | popFront
  | extend (newSize : ℕ) (extendValue : Operand Var T)
  | resize (newSize : ℕ) (extendValue : Operand Var T)
  | truncate (newSize : ℕ)
  | clear
  | reserve (capacity : ℕ)

section Operations

variable {Var T : Type} (type : ObjectType T) (grants : ℕ → ℕ → Bool)

def Operand.resolve (vecs : Var → Vec) : Operand Var T → Reference T
  | .value given => .temporary given
  | .element var index => .element ((vecs var).element index)

def SpanOperand.size : SpanOperand Var T → ℕ
  | .values given => given.length
  | .elements _ _ count => count

/-- The operand for one element of a span. -/
def SpanOperand.get (data : SpanOperand Var T) (i : ℕ) : Option (Operand Var T) :=
  match data with
  | .values given => given[i]?.map .value
  | .elements var start count => if i < count then some (.element var (start + i)) else none

def SpanOperand.resolve (vecs : Var → Vec) (data : SpanOperand Var T) : Util.Span T where
  data i := ((data.get i).map (Operand.resolve vecs)).getD (.element (0, 0))
  size := data.size

/-- The operation on a vector, given the vectors that its arguments refer to. A `reserve` belongs to
a `Vec` only. -/
def Operation.run (vecs : Var → Vec) (memory : Memory T) (vec : Vec) :
    Operation Var T → Option (Memory T × Vec)
  | .add value rvalue => vec.add type memory grants (value.resolve vecs) rvalue
  | .insert value rvalue index => vec.insert type memory grants (value.resolve vecs) rvalue index
  | .emplaceAt index value rvalue =>
    vec.emplaceAt type memory grants index (value.resolve vecs) rvalue
  | .pushFront value rvalue => vec.pushFront type memory grants (value.resolve vecs) rvalue
  | .append data => vec.append type memory grants (data.resolve vecs)
  | .remove index => (Vec.Base.remove type memory vec index).map Prod.snd
  | .popBack => (Vec.Base.popBack type memory vec).map Prod.snd
  | .popFront => (Vec.Base.popFront type memory vec).map Prod.snd
  | .extend newSize extendValue =>
    vec.extend type memory grants newSize (extendValue.resolve vecs)
  | .resize newSize extendValue =>
    vec.resize type memory grants newSize (extendValue.resolve vecs)
  | .truncate newSize => Vec.Base.truncate type memory vec newSize
  | .clear => some (Vec.Base.clear type memory vec)
  | .reserve capacity => vec.grow type memory grants capacity

/-- The operand refers to an element that there is. -/
def Operand.Allowed (sizes : Var → ℕ) : Operand Var T → Prop
  | .value _ => True
  | .element var index => index < sizes var

def SpanOperand.Allowed (sizes : Var → ℕ) : SpanOperand Var T → Prop
  | .values _ => True
  | .elements var start count => start + count ≤ sizes var

/-- The arguments of an operation refer to elements that there are. -/
def Operation.Allowed (sizes : Var → ℕ) : Operation Var T → Prop
  | .add value _ | .insert value _ _ | .emplaceAt _ value _ | .pushFront value _
  | .extend _ value | .resize _ value => value.Allowed sizes
  | .append data => data.Allowed sizes
  | .remove _ | .popBack | .popFront | .truncate _ | .clear | .reserve _ => True

instance (sizes : Var → ℕ) (operand : Operand Var T) : Decidable (operand.Allowed sizes) :=
  match operand with
  | .value _ => inferInstanceAs (Decidable True)
  | .element _ _ => inferInstanceAs (Decidable (_ < _))

instance (sizes : Var → ℕ) (operand : SpanOperand Var T) : Decidable (operand.Allowed sizes) :=
  match operand with
  | .values _ => inferInstanceAs (Decidable True)
  | .elements _ _ _ => inferInstanceAs (Decidable (_ ≤ _))

instance (sizes : Var → ℕ) (operation : Operation Var T) : Decidable (operation.Allowed sizes) := by
  cases operation <;> unfold Operation.Allowed <;> infer_instance

/-- A step of a program that has one vector, whose arguments may refer to its elements. -/
def Vec.step (state : Memory T × Vec) (operation : Operation Unit T) : Option (Memory T × Vec) :=
  if operation.Allowed fun _ => state.2.mSize then
    operation.run type grants (fun _ => state.2) state.1 state.2
  else none

end Operations

end Hakkun.Container
