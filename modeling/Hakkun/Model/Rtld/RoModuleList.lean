import Hakkun.Machine.Core.Ring
import Hakkun.Machine.Core.Run

/-! # The list of loaded modules

Translated from `rtld/RoModuleList.h`. The list casts itself to a module, whose `next` is then the
list's `front` and whose `prev` is its `back`; a reference is therefore the list or a module, and
null is left to the arguments. The links are those of the list and of all modules in memory.
-/

namespace Hakkun.Rtld

/-- A reference that is not null: `(RoModule*)this` or a module. -/
inductive Ref (M : Type*) where
  | this
  | module (m : M)
  deriving DecidableEq

/-- The links in memory. -/
structure RoModuleList (M : Type*) where
  next : Ref M → Ref M
  prev : Ref M → Ref M

namespace RoModuleList

variable {M : Type*} [DecidableEq M]

def front (list : RoModuleList M) : Ref M := list.next .this
def back (list : RoModuleList M) : Ref M := list.prev .this

def setNext (list : RoModuleList M) (ref value : Ref M) : RoModuleList M :=
  { list with next := Function.update list.next ref value }

def setPrev (list : RoModuleList M) (ref value : Ref M) : RoModuleList M :=
  { list with prev := Function.update list.prev ref value }

def setFront (list : RoModuleList M) (value : Ref M) : RoModuleList M := list.setNext .this value
def setBack (list : RoModuleList M) (value : Ref M) : RoModuleList M := list.setPrev .this value

/-- The constructor. -/
def construct (memory : RoModuleList M) : RoModuleList M := (memory.setFront .this).setBack .this

def empty (list : RoModuleList M) : Bool := list.front = .this

def pushFront (list : RoModuleList M) (module : Option M) : RoModuleList M :=
  match module with
  | none => list
  | some m =>
    let list := list.setPrev (.module m) .this
    let list := list.setNext (.module m) list.front
    let list := list.setPrev list.front (.module m)
    list.setFront (.module m)

def pushBack (list : RoModuleList M) (module : Option M) : RoModuleList M :=
  match module with
  | none => list
  | some m =>
    let list := list.setNext (.module m) .this
    let list := list.setPrev (.module m) list.back
    let list := list.setNext list.back (.module m)
    list.setBack (.module m)

def popFront (list : RoModuleList M) : RoModuleList M :=
  if list.empty then list
  else
    let oldFront := list.front
    let list := list.setFront (list.next list.front)
    let list := list.setPrev list.front .this
    let list := list.setPrev oldFront oldFront
    list.setNext oldFront oldFront

def popBack (list : RoModuleList M) : RoModuleList M :=
  if list.empty then list
  else
    let oldBack := list.back
    let list := list.setBack (list.prev list.back)
    let list := list.setNext list.back .this
    let list := list.setPrev oldBack oldBack
    list.setNext oldBack oldBack

def insertBefore (list : RoModuleList M) (pos : Option (Ref M)) (module : Option M) :
    RoModuleList M :=
  match pos, module with
  | some pos, some m =>
    let list := list.setNext (.module m) pos
    let list := list.setPrev (.module m) (list.prev pos)
    let list := list.setNext (list.prev pos) (.module m)
    let list := list.setPrev pos (.module m)
    if pos = list.front then list.setFront (.module m) else list
  | _, _ => list

def insertAfter (list : RoModuleList M) (pos : Option (Ref M)) (module : Option M) :
    RoModuleList M :=
  match pos, module with
  | some pos, some m =>
    let list := list.setPrev (.module m) pos
    let list := list.setNext (.module m) (list.next pos)
    let list := list.setPrev (list.next pos) (.module m)
    let list := list.setNext pos (.module m)
    if pos = list.back then list.setBack (.module m) else list
  | _, _ => list

def remove (list : RoModuleList M) (module : Option (Ref M)) : RoModuleList M :=
  match module with
  | some (.module m) =>
    let list := if .module m = list.front then
      list.setFront (if list.next (.module m) = .this then .this else list.next (.module m)) else list
    let list := if .module m = list.back then
      list.setBack (if list.prev (.module m) = .this then .this else list.prev (.module m)) else list
    let list := list.setNext (list.prev (.module m)) (list.next (.module m))
    let list := list.setPrev (list.next (.module m)) (list.prev (.module m))
    let list := list.setPrev (.module m) (.module m)
    list.setNext (.module m) (.module m)
  | _ => list

/-- `Iterator::operator++`. -/
def advance (list : RoModuleList M) (reverted : Bool) (current : Ref M) : Ref M :=
  if reverted then list.next current else list.prev current

/-- What a loop over the iterators visits: `rbegin` starts at the front and goes along `next`,
`begin` starts at the back and goes along `prev`. -/
def iterate (list : RoModuleList M) (reverted : Bool) (fuel : ℕ) : Option (List (Ref M)) :=
  Machine.collect (list.advance reverted) .this fuel
    (if reverted then list.front else list.back)

end RoModuleList

/-- The operations of a list; an argument may be null. -/
inductive Operation (M : Type*) where
  | pushFront (module : Option M)
  | pushBack (module : Option M)
  | popFront
  | popBack
  | insertBefore (pos : Option (Ref M)) (module : Option M)
  | insertAfter (pos : Option (Ref M)) (module : Option M)
  | remove (module : Option (Ref M))

variable {M : Type*} [DecidableEq M]

def Operation.run (list : RoModuleList M) : Operation M → RoModuleList M
  | .pushFront module => list.pushFront module
  | .pushBack module => list.pushBack module
  | .popFront => list.popFront
  | .popBack => list.popBack
  | .insertBefore pos module => list.insertBefore pos module
  | .insertAfter pos module => list.insertAfter pos module
  | .remove module => list.remove module

end Hakkun.Rtld
