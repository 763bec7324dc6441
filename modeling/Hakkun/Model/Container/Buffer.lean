import Hakkun.Model.Container.Vec
import Mathlib.Logic.Function.Basic

/-! # Buffers

Translated from `hk/container/Buffer.h`. A buffer is a block from the allocator and the number of
its elements. What a call asks of the allocator and does with elements is a list of events.
-/

namespace Hakkun.Container

open Machine Util

/-- What a buffer sees of the type of its elements. -/
structure ElementType where
  sizeOf : ℕ
  alignOf : ℕ
  /-- An assignment to storage begins an object there. -/
  trivial : Bool
  sizeOf_pos : 0 < sizeOf

/-- What is asked of the allocator and of elements. -/
inductive BufferEvent (T : Type) where
  | allocate (block bytes align : ℕ)
  | construct (place : Address) (value : Reference T)
  | assign (place : Address) (value : Reference T)
  | destroy (place : Address)
  | free (block : ℕ)

/-- `ResultSuccess`, `ResultOutOfResource` and `ResultNoValue`. -/
inductive BufferResult where
  | success
  | outOfResource
  | noValue
  deriving DecidableEq

/-- The span that a buffer is; its block is 0 without one. -/
structure Buffer where
  mData : ℕ := 0
  mSize : ℕ := 0
  deriving DecidableEq

namespace Buffer

variable {T : Type} (type : ElementType) (buffer : Buffer)

/-- `allocBuffer`, with the block that the allocator returns. -/
def allocBuffer (size : ℕ) (value : Reference T) (align : ℕ) :
    Option ℕ → List (BufferEvent T) × Buffer × BufferResult
  | none => ([], buffer, .outOfResource)
  | some data =>
    let buffer : Buffer := { mData := data, mSize := size }
    (.allocate data (size * type.sizeOf % 2 ^ 64) align ::
      (List.range buffer.mSize).map fun i => .construct (buffer.mData, i) value, buffer, .success)

def freeBuffer : List (BufferEvent T) × Buffer × BufferResult :=
  if buffer.mData ≠ 0 then
    ((List.range buffer.mSize).map (fun i => .destroy (buffer.mData, i)) ++ [.free buffer.mData],
      { mData := 0, mSize := 0 }, .success)
  else ([], buffer, .noValue)

/-- `setCopy`, which assigns to the elements of the new block. -/
def setCopy (data : Util.Span T) : Option ℕ → List (BufferEvent T) × Buffer × BufferResult
  | none => ([], buffer, .outOfResource)
  | some newPtr =>
    (.allocate newPtr (data.size * type.sizeOf % 2 ^ 64) type.alignOf ::
      (List.range data.size).map fun i => .assign (newPtr, i) (data.data i),
      { mData := newPtr, mSize := data.size }, .success)

end Buffer

/-- The buffers of a program. -/
abbrev Buffers (Var : Type) := Var → Option Buffer

/-- What a program does with buffers; `granted` is what the allocator returns if it is asked. -/
inductive BufferCall (Var T : Type) where
  | construct (var : Var)
  | copyConstruct (var other : Var) (granted : Option ℕ)
  | moveConstruct (var old : Var)
  | constructSpan (var : Var) (data : SpanOperand Var T) (granted : Option ℕ)
  | allocBuffer (var : Var) (size : ℕ) (value : Operand Var T) (align : ℕ) (granted : Option ℕ)
  | freeBuffer (var : Var)
  | setCopy (var : Var) (data : SpanOperand Var T) (granted : Option ℕ)
  | destruct (var : Var)

namespace Buffers

variable {Var T : Type} (type : ElementType) (buffers : Buffers Var)

/-- The buffer of a variable; a variable without one is not accessed. -/
def get (var : Var) : Buffer := (buffers var).getD {}

def size (var : Var) : ℕ := (buffers.get var).mSize

def reference : Operand Var T → Reference T
  | .value given => .temporary given
  | .element var index => .element ((buffers.get var).mData, index)

/-- The elements that a span argument refers to. -/
def span (data : SpanOperand Var T) : Util.Span T where
  data i := ((data.get i).map buffers.reference).getD (.element (0, 0))
  size := data.size

variable [DecidableEq Var]

/-- A variable with what a call on its buffer leaves. -/
def place (var : Var) (done : List (BufferEvent T) × Buffer × BufferResult) :
    List (BufferEvent T) × Buffers Var × BufferResult :=
  (done.1, Function.update buffers var (some done.2.1), done.2.2)

/-- The effect of a call, if a program can make it: what it constructs does not exist yet and what it
uses does. A constructor does not look at the result that is given here. -/
def call : BufferCall Var T → Option (List (BufferEvent T) × Buffers Var × BufferResult)
  | .construct var =>
    if buffers var = none then some (buffers.place var ([], {}, .success)) else none
  | .copyConstruct var other granted =>
    if buffers var = none ∧ buffers other ≠ none then
      some (buffers.place var (Buffer.setCopy type {}
        (buffers.span (.elements other 0 (buffers.size other))) granted))
    else none
  | .moveConstruct var old =>
    if buffers var = none ∧ buffers old ≠ none then
      let moved := Function.update buffers var (some (buffers.get old))
      some ([], Function.update moved old (some { mData := 0, mSize := 0 }), .success)
    else none
  | .constructSpan var data granted =>
    if buffers var = none ∧ data.Allowed buffers.size then
      some (buffers.place var (Buffer.setCopy type {} (buffers.span data) granted))
    else none
  | .allocBuffer var size value align granted =>
    if buffers var ≠ none ∧ value.Allowed buffers.size then
      some (buffers.place var
        ((buffers.get var).allocBuffer type size (buffers.reference value) align granted))
    else none
  | .freeBuffer var =>
    if buffers var ≠ none then some (buffers.place var (buffers.get var).freeBuffer) else none
  | .setCopy var data granted =>
    if buffers var ≠ none ∧ data.Allowed buffers.size then
      some (buffers.place var ((buffers.get var).setCopy type (buffers.span data) granted))
    else none
  | .destruct var =>
    if buffers var ≠ none then
      some ((buffers.get var).freeBuffer.1, Function.update buffers var none, .success)
    else none

end Buffers

end Hakkun.Container
