import Mathlib.Data.List.Basic

/-! # Iterating over several containers

Translated from `hk/prim/iterator/Multi.h`. Each level of `MultiIteratorElement` keeps the iterator
into its own container, a position that goes up to the number of elements; the last base keeps the
index of the current container.
-/

namespace Hakkun.Util

/-- One level of `MultiIteratorElement`, with the container that its iterators are of. -/
structure MultiIteratorElement (To : Type) where
  container : List To
  mCurIter : ℕ
  mCurIterEnd : ℕ

/-- What a dereference does that gives no element. -/
inductive DerefFault where
  | endIterator
  | abort (message : String)
  deriving DecidableEq

variable {To : Type}

namespace MultiIteratorElement

/-- The constructor from a container. -/
def ofBegin (cur : List To) : MultiIteratorElement To := ⟨cur, 0, cur.length⟩

/-- The constructor with `MultiIteratorEnd`. -/
def ofEnd (cur : List To) : MultiIteratorElement To := ⟨cur, cur.length, cur.length⟩

/-- `++mCurIter`. -/
def increment (element : MultiIteratorElement To) : MultiIteratorElement To :=
  { element with mCurIter := element.mCurIter + 1 }

/-- `next` of the levels from `Index` on. -/
def next (Index : ℕ) : List (MultiIteratorElement To) → (mCurIteratorIdx : ℕ) →
    List (MultiIteratorElement To) × ℕ
  | [], mCurIteratorIdx => ([], mCurIteratorIdx)
  | element :: rest, mCurIteratorIdx =>
    if mCurIteratorIdx = Index then
      let element := element.increment
      (element :: rest,
        if element.mCurIter = element.mCurIterEnd then mCurIteratorIdx + 1 else mCurIteratorIdx)
    else
      let (rest, mCurIteratorIdx) := next (Index + 1) rest mCurIteratorIdx
      (element :: rest, mCurIteratorIdx)

/-- `isEqual`, which looks at the index of the other iterator alone. -/
def isEqual : List (MultiIteratorElement To) → (mCurIteratorIdx other : ℕ) → Bool
  | [], mCurIteratorIdx, other => mCurIteratorIdx == other
  | element :: rest, mCurIteratorIdx, other =>
    isEqual rest mCurIteratorIdx other && element.mCurIter == element.mCurIterEnd

/-- `getReference` of the levels from `Index` on. -/
def getReference (Index : ℕ) : List (MultiIteratorElement To) → (mCurIteratorIdx : ℕ) →
    Except DerefFault To
  | [], _ => .error (.abort "hk::util::detail::MultiIteratorElement: reached base")
  | element :: rest, mCurIteratorIdx =>
    if mCurIteratorIdx = Index then
      match element.container[element.mCurIter]? with
      | some value => .ok value
      | none => .error .endIterator
    else getReference (Index + 1) rest mCurIteratorIdx

end MultiIteratorElement

/-- `MultiIterator<To, Types...>`. -/
structure MultiIterator (To : Type) where
  elements : List (MultiIteratorElement To)
  mCurIteratorIdx : ℕ

namespace MultiIterator

variable (iterator : MultiIterator To)

/-- `operator++`. -/
def increment : MultiIterator To :=
  let (elements, mCurIteratorIdx) :=
    MultiIteratorElement.next 0 iterator.elements iterator.mCurIteratorIdx
  ⟨elements, mCurIteratorIdx⟩

/-- `operator==`. -/
def isEqual (other : MultiIterator To) : Bool :=
  MultiIteratorElement.isEqual iterator.elements iterator.mCurIteratorIdx other.mCurIteratorIdx

/-- `operator*`. -/
def deref : Except DerefFault To :=
  MultiIteratorElement.getReference 0 iterator.elements iterator.mCurIteratorIdx

end MultiIterator

namespace MultiIteratable

variable (containers : List (List To))

/-- `begin` of `iterateMultiple(containers...)`. -/
def begin : MultiIterator To := ⟨containers.map .ofBegin, 0⟩

/-- `end` of `iterateMultiple(containers...)`. -/
def finish : MultiIterator To := ⟨containers.map .ofEnd, containers.length⟩

end MultiIteratable

/-- How far a range-based `for` has come. -/
inductive LoopStatus where
  | running
  | stopped
  | fault (fault : DerefFault)
  deriving DecidableEq

/-- A range-based `for` from an iterator on, for some turns: what it visits. -/
def rangeFor (finish : MultiIterator To) : (turns : ℕ) → MultiIterator To → List To × LoopStatus
  | 0, _ => ([], .running)
  | turns + 1, iterator =>
    if iterator.isEqual finish then ([], .stopped)
    else
      match iterator.deref with
      | .error fault => ([], .fault fault)
      | .ok value =>
        let (visited, status) := rangeFor finish turns iterator.increment
        (value :: visited, status)

end Hakkun.Util
