import Hakkun.Model.Core.Integer
import Hakkun.Model.Util.Construct

/-! # Ranges of a span

Translated from `hk/prim/SpanOperations.h` and `copyOverlapping` in `hk/util/Algorithm.h`. A span is
a block and the number of its elements; `none` is an abort. The sums and differences of the checks
are those of 64 bits.
-/

namespace Hakkun.Util

open Machine

variable {T : Type} (type : ObjectType T)

/-- One element of `copyOverlapping`. -/
def copyAt (dest src : Address) (memory : Memory T) : Memory T :=
  constructAt type (memory.destroy type dest) dest (.element src) false

/-- `copyOverlapping` within one block. -/
def copyOverlapping (memory : Memory T) (dest src : Address) (amount : ℕ) : Memory T :=
  if dest.2 < src.2 then
    loop (fun i => copyAt type (dest.offset i) (src.offset i)) amount memory
  else
    loop (fun i => copyAt type (dest.offset (amount - 1 - i)) (src.offset (amount - 1 - i)))
      amount memory

end Hakkun.Util

namespace Hakkun.Container

open Machine Util

/-- What `getData` and `getSize` give. -/
structure SpanStorage where
  getData : ℕ
  getSize : U64

/-- A part of a span: where it begins and the number of its elements. -/
structure SpanSlice where
  data : Address
  size : U64

namespace SpanStorage

variable {T : Type} (type : ObjectType T) (span : SpanStorage) (memory : Memory T)

/-- `getData() + index`. -/
def element (index : U64) : Address := (span.getData, index.toNat)

def slice (offset amount : U64) : Option SpanSlice :=
  let amount := if amount = 0 then span.getSize - offset else amount
  if amount ≤ span.getSize - offset then some ⟨span.element offset, amount⟩ else none

def fill (dstIdx amount : U64) (value : Reference T) : Option (Memory T) :=
  if amount = 0 then some memory
  else if dstIdx < span.getSize ∧ dstIdx + (amount - 1) < span.getSize then
    some (Util.fill type memory (span.element dstIdx) amount.toNat value)
  else none

/-- The checks of `copy` and `move`, before they go on with the elements. -/
def checked (dstIdx srcIdx amount : U64) (elements : Memory T) : Option (Memory T) :=
  if dstIdx = srcIdx ∨ amount = 0 then some memory
  else if dstIdx < span.getSize ∧ srcIdx < span.getSize ∧
      dstIdx + (amount - 1) < span.getSize ∧ srcIdx + (amount - 1) < span.getSize then
    some elements
  else none

def copy (dstIdx srcIdx amount : U64) : Option (Memory T) :=
  span.checked memory dstIdx srcIdx amount
    (copyOverlapping type memory (span.element dstIdx) (span.element srcIdx) amount.toNat)

def move (dstIdx srcIdx amount : U64) : Option (Memory T) :=
  span.checked memory dstIdx srcIdx amount
    (constructMoveOverlapping type memory (span.element dstIdx) (span.element srcIdx) amount.toNat)

end SpanStorage

end Hakkun.Container
