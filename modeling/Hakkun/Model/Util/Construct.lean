import Hakkun.Machine.Core.Objects

/-! # Construction algorithms

The loops over objects of `hk/util/Algorithm.h`. Where the source copies the bytes of a trivial type
instead, that is the same loop over objects without lifetimes.
-/

namespace Hakkun.Util

open Machine

variable {T : Type} (type : ObjectType T)

/-- What a `const T&` or a `T&&` is bound to. -/
inductive Reference (T : Type) where
  | temporary (value : T)
  | element (address : Address)

/-- The elements that a `Span<const T>` refers to. -/
structure Span (T : Type) where
  data : ℕ → Reference T
  size : ℕ

/-- `construct_at(dest, value)`, or `construct_at(dest, forward<T>(value))`. -/
def constructAt (memory : Memory T) (dest : Address) (value : Reference T) (rvalue : Bool) :
    Memory T :=
  match value with
  | .temporary value => memory.construct type dest (some value)
  | .element src =>
    let value := memory.read src
    let memory := (memory.touch src).construct type dest value
    if rvalue then memory.retire type src else memory

/-- `copy`, onto live objects. -/
def copy (memory : Memory T) (dest : Address) (src : ℕ → Reference T) (amount : ℕ) : Memory T :=
  loop (fun i memory =>
    constructAt type (memory.destroy type (dest.offset i)) (dest.offset i) (src i) false) amount memory

/-- `move`, onto live objects. -/
def move (memory : Memory T) (dest src : Address) (amount : ℕ) : Memory T :=
  loop (fun i memory =>
    constructAt type (memory.destroy type (dest.offset i)) (dest.offset i)
      (.element (src.offset i)) true) amount memory

/-- `constructMove`. -/
def constructMove (memory : Memory T) (dest src : Address) (amount : ℕ) : Memory T :=
  loop (fun i memory => constructAt type memory (dest.offset i) (.element (src.offset i)) true)
    amount memory

/-- One element of `constructMoveOverlapping<true>`. -/
def constructMoveDestroy (dest src : Address) (memory : Memory T) : Memory T :=
  (constructAt type memory dest (.element src) true).destroy type src

/-- `constructMoveOverlapping<true>` within one block. -/
def constructMoveOverlapping (memory : Memory T) (dest src : Address) (amount : ℕ) : Memory T :=
  if dest.2 < src.2 then
    loop (fun i => constructMoveDestroy type (dest.offset i) (src.offset i)) amount memory
  else
    loop (fun i => constructMoveDestroy type (dest.offset (amount - 1 - i))
      (src.offset (amount - 1 - i))) amount memory

/-- `constructCopy`. -/
def constructCopy (memory : Memory T) (dest : Address) (src : ℕ → Reference T) (amount : ℕ) :
    Memory T :=
  loop (fun i memory => constructAt type memory (dest.offset i) (src i) false) amount memory

/-- `fill`. -/
def fill (memory : Memory T) (dest : Address) (amount : ℕ) (value : Reference T) : Memory T :=
  loop (fun i memory =>
    constructAt type (memory.destroy type (dest.offset i)) (dest.offset i) value false) amount memory

/-- `construct` without arguments. -/
def construct [Inhabited T] (memory : Memory T) (dest : Address) (amount : ℕ) : Memory T :=
  loop (fun i memory => constructAt type memory (dest.offset i) (.temporary default) false)
    amount memory

/-- `destroy`. -/
def destroy (memory : Memory T) (dest : Address) (amount : ℕ) : Memory T :=
  loop (fun i memory => memory.destroy type (dest.offset i)) amount memory

end Hakkun.Util
