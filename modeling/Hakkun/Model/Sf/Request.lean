import Hakkun.Model.Sf.Hipc

/-! # Requests

Translated from `Request` in `hk/sf/sf.h`: the descriptors of a request and what is left of the
server's pointer buffer. A vector of fixed capacity that is full aborts.
-/

namespace Hakkun.Sf

open Hipc

/-- `FixedVec<T, Capacity>`, by its elements. -/
structure FixedVec (T : Type) (Capacity : ℕ) where
  elements : List T
  fits : elements.length ≤ Capacity

namespace FixedVec

variable {T : Type} {Capacity : ℕ}

def empty : FixedVec T Capacity := ⟨[], Nat.zero_le _⟩

/-- `add`; there is no result when the vector is full. -/
def add (vec : FixedVec T Capacity) (value : T) : Option (FixedVec T Capacity) :=
  if room : vec.elements.length < Capacity then
    some ⟨vec.elements ++ [value], by rwa [List.length_append, List.length_singleton]⟩
  else none

end FixedVec

/-- The part of `Request` that descriptors are added to. -/
structure Request where
  mHipcStaticIdx : BitVec 8 := 0
  mServerPointerSize : BitVec 16
  mHipcSendStatics : FixedVec Static 8 := .empty
  mHipcSendBuffers : FixedVec Buffer 8 := .empty
  mHipcReceiveBuffers : FixedVec Buffer 8 := .empty
  mHipcReceiveStatics : FixedVec ReceiveStatic 8 := .empty
  mHipcOutPointerSizes : FixedVec (BitVec 16) 8 := .empty

namespace Request

variable (request : Request)

def addInPointer (data : U64) (size : BitVec 16) : Option Request := do
  let mHipcSendStatics ← request.mHipcSendStatics.add (.make request.mHipcStaticIdx data size)
  some { request with
    mHipcStaticIdx := request.mHipcStaticIdx + 1
    mHipcSendStatics
    mServerPointerSize := request.mServerPointerSize - size }

def addOutFixedSizePointer (data : U64) (size : BitVec 16) : Option Request := do
  let mHipcReceiveStatics ← request.mHipcReceiveStatics.add (.make data size)
  some { request with
    mHipcReceiveStatics
    mServerPointerSize := request.mServerPointerSize - size }

def addOutPointer (data size : U64) : Option Request := do
  let request ← request.addOutFixedSizePointer data (size.setWidth 16)
  let mHipcOutPointerSizes ← request.mHipcOutPointerSizes.add (size.setWidth 16)
  some { request with mHipcOutPointerSizes }

/-- The condition under which an autoselect call adds a pointer. -/
def selectsPointer (size : U64) : Bool :=
  request.mServerPointerSize > 0 && size ≤ request.mServerPointerSize.setWidth 64

def addInAutoselect (data size : U64) (mode : BufferMode) : Option Request :=
  if request.selectsPointer size then do
    let request ← request.addInPointer data (size.setWidth 16)
    let mHipcSendBuffers ← request.mHipcSendBuffers.add (.make mode 0 0)
    some { request with mHipcSendBuffers }
  else do
    let request ← request.addInPointer 0 0
    let mHipcSendBuffers ← request.mHipcSendBuffers.add (.make mode data size)
    some { request with mHipcSendBuffers }

def addOutAutoselect (data size : U64) (mode : BufferMode) : Option Request :=
  if request.selectsPointer size then do
    let mHipcReceiveStatics ← request.mHipcReceiveStatics.add (.make data (size.setWidth 16))
    let mHipcReceiveBuffers ← request.mHipcReceiveBuffers.add (.make mode 0 0)
    let mHipcOutPointerSizes ← request.mHipcOutPointerSizes.add (size.setWidth 16)
    some { request with mHipcReceiveStatics, mHipcReceiveBuffers, mHipcOutPointerSizes }
  else do
    let mHipcReceiveStatics ← request.mHipcReceiveStatics.add .empty
    let mHipcReceiveBuffers ← request.mHipcReceiveBuffers.add (.make mode data size)
    some { request with mHipcReceiveStatics, mHipcReceiveBuffers }

/-- A call that adds data of some size; a parameter of 16 bits cuts the size. -/
inductive Call where
  | addInPointer (data size : U64)
  | addOutFixedSizePointer (data size : U64)
  | addOutPointer (data size : U64)
  | addInAutoselect (data size : U64) (mode : BufferMode)
  | addOutAutoselect (data size : U64) (mode : BufferMode)

def perform : Call → Option Request
  | .addInPointer data size => request.addInPointer data (size.setWidth 16)
  | .addOutFixedSizePointer data size => request.addOutFixedSizePointer data (size.setWidth 16)
  | .addOutPointer data size => request.addOutPointer data size
  | .addInAutoselect data size mode => request.addInAutoselect data size mode
  | .addOutAutoselect data size mode => request.addOutAutoselect data size mode

end Request

end Hakkun.Sf
