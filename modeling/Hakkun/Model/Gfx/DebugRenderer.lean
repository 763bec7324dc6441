import Hakkun.Machine.Core.Effect
import Hakkun.Model.Hook.MapUtil

/-! # The vertices of the debug renderer

Translated from `DebugRendererImpl.cpp`. Of what a call does, the addresses of the vertices that it
writes and its `DrawArrays` are kept; the contents of the vertices, and with them `uv`, `color` and
the arithmetic on positions, are left out. A signed counter, which starts at zero, is its value; it
has no defined behaviour past the largest.
-/

namespace Hakkun.Gfx

open Machine.Core

/-! ## `f32` -/

abbrev F32 := BitVec 32

namespace F32

def isNan (value : F32) : Bool := 0x7f800000 < value.toNat % 0x80000000

def isZero (value : F32) : Bool := value.toNat % 0x80000000 == 0

/-- `one == two`. -/
def eq (one two : F32) : Bool :=
  !isNan one && !isNan two && (one == two || isZero one && isZero two)

/-- `value <= 0.0f`. -/
def leZero (value : F32) : Bool := !isNan value && (value.msb || isZero value)

/-- The `f32` of a natural number below the largest: the nearest of 24 bits, or the even one. -/
def ofNat (value : ℕ) : ℕ :=
  let ulp := 2 ^ (value.log2 - 23)
  let below := value / ulp
  let rest := value % ulp
  if 2 * rest < ulp ∨ 2 * rest = ulp ∧ below % 2 = 0 then ulp * below else ulp * (below + 1)

end F32

/-! ## Vertices -/

structure Vector2f where
  x : F32
  y : F32
  deriving DecidableEq

structure Vertex where
  pos : Vector2f
  deriving DecidableEq

/-- `sizeof(Vertex)`, of two vectors and a color. -/
def cVertexSize : U64 := 20

/-- The buffer: `HAKKUN_DEBUGRENDERER_VTXBUFFER_SIZE`, and what `mVtxBuffer.map()` gives. It is
static memory of a module, whose sections have 32-bit sizes. -/
structure VtxBuffer where
  VTXBUFFER_SIZE : U64
  map : Ptr
  small : (Hook.alignUpPage (VTXBUFFER_SIZE * cVertexSize)).toNat < 2 ^ 32
  inside : map.toNat + (Hook.alignUpPage (VTXBUFFER_SIZE * cVertexSize)).toNat ≤ 2 ^ 64

def VtxBuffer.cVtxBufferSize (buffer : VtxBuffer) : U64 :=
  Hook.alignUpPage (buffer.VTXBUFFER_SIZE * cVertexSize)

inductive Event where
  | write (address : Ptr)
  /-- The arguments are `int`. -/
  | drawArrays (first count : U32)
  deriving DecidableEq

/-- `cur[i]` is assigned. -/
def assign (cur : Ptr) (i : ℕ) : Effect Event Unit :=
  .emit (.write (cur + BitVec.ofNat 64 i * cVertexSize))

/-- `i + 1` of an `s32`. -/
def succ (i : ℕ) : Effect Event ℕ := if i + 1 < 2 ^ 31 then pure (i + 1) else ⟨[], .undefined⟩

/-- `cur[v++]` is assigned. -/
def push (cur : Ptr) (v : ℕ) : Effect Event ℕ := do
  assign cur v
  succ v

structure DebugRendererImpl where
  mVtxOffset : U64 := 0
  mCurVtxMap : Ptr := 0
  deriving DecidableEq

namespace DebugRendererImpl

def checkVtxBuffer (impl : DebugRendererImpl) (buffer : VtxBuffer) (addSize : U32) :
    Effect Event Unit :=
  .abortUnless ((impl.mVtxOffset + addSize.setWidth 64) * cVertexSize < buffer.cVtxBufferSize)

def clear (impl : DebugRendererImpl) (buffer : VtxBuffer) : DebugRendererImpl :=
  { impl with mCurVtxMap := buffer.map, mVtxOffset := 0 }

/-- `reinterpret_cast<Vertex*>(mCurVtxMap + mVtxOffset * sizeof(Vertex))`. -/
def cur (impl : DebugRendererImpl) : Ptr := impl.mCurVtxMap + impl.mVtxOffset * cVertexSize

/-- `DrawArrays` of what was written behind the offset, which is moved. -/
def drawArrays (impl : DebugRendererImpl) (count : U32) : Effect Event DebugRendererImpl := do
  .emit (.drawArrays (impl.mVtxOffset.setWidth 32) count)
  return { impl with mVtxOffset := impl.mVtxOffset + count.setWidth 64 }

/-- The loop over the vertices that are given. -/
def assignAll (cur : Ptr) : ℕ → ℕ → Effect Event Unit
  | 0, _ => pure ()
  | count + 1, i => do
    assignAll cur count (← push cur i)

def drawGiven (impl : DebugRendererImpl) (buffer : VtxBuffer) (count : ℕ) :
    Effect Event DebugRendererImpl := do
  impl.checkVtxBuffer buffer (.ofNat 32 count)
  assignAll impl.cur count 0
  impl.drawArrays (.ofNat 32 count)

def drawTri (impl : DebugRendererImpl) (buffer : VtxBuffer) := impl.drawGiven buffer 3

def drawQuadImpl (impl : DebugRendererImpl) (buffer : VtxBuffer) := impl.drawGiven buffer 4

def drawLine (impl : DebugRendererImpl) (buffer : VtxBuffer) := impl.drawGiven buffer 2

/-- `for (f32 j = 0; j < numSides; j += 1.0f)`, where `numSides` becomes an `f32`. -/
def roundLoop (cur : Ptr) (numSides : U32) : ℕ → ℕ → ℕ → Effect Event ℕ
  | 0, _, _ => ⟨[], .running⟩
  | fuel + 1, j, v =>
    if j < F32.ofNat numSides.toNat then do
      roundLoop cur numSides fuel (F32.ofNat (j + 1)) (← push cur v)
    else pure v

/-- The loop over the corners that are left. -/
def cornerLoop (cur : Ptr) (numSides : U32) (fuel : ℕ) : ℕ → ℕ → Effect Event ℕ
  | 0, v => pure v
  | left + 1, v => do
    let v ← push cur v
    let v ← push cur v
    cornerLoop cur numSides fuel left (← roundLoop cur numSides fuel 0 v)

def axisAligned (tl tr br bl : Vertex) : Bool :=
  F32.eq tl.pos.y tr.pos.y && F32.eq bl.pos.y br.pos.y && F32.eq tl.pos.x bl.pos.x &&
    F32.eq tr.pos.x br.pos.x

def drawQuadRoundImpl (impl : DebugRendererImpl) (buffer : VtxBuffer) (fuel : ℕ)
    (tl tr br bl : Vertex) (numSides : U32) : Effect Event DebugRendererImpl := do
  .abortUnless (axisAligned tl tr br bl)
  let numVertices := 10 + 4 * numSides
  impl.checkVtxBuffer buffer numVertices
  let v ← push impl.cur 0
  let v ← cornerLoop impl.cur numSides fuel 4 v
  let _ ← push impl.cur v
  impl.drawArrays numVertices

def drawQuad (impl : DebugRendererImpl) (buffer : VtxBuffer) (fuel : ℕ)
    (tl tr br bl : Vertex) (round : F32) (numSides : U32) : Effect Event DebugRendererImpl :=
  if round.leZero then impl.drawQuadImpl buffer
  else impl.drawQuadRoundImpl buffer fuel tl tr br bl numSides

/-- `for (s32 i = 0; i <= numSides; i++)`, which assigns `cur[index(i)]`; the comparison is of
`u32`. -/
def sideLoop (cur : Ptr) (index : ℕ → Effect Event ℕ) (numSides : U32) : ℕ → ℕ → Effect Event Unit
  | 0, _ => ⟨[], .running⟩
  | fuel + 1, i =>
    if i ≤ numSides.toNat then do
      assign cur (← index i)
      sideLoop cur index numSides fuel (← succ i)
    else pure ()

def drawCircle (impl : DebugRendererImpl) (buffer : VtxBuffer) (fuel : ℕ) (numSides : U32) :
    Effect Event DebugRendererImpl := do
  let numVertices := numSides + 1
  impl.checkVtxBuffer buffer numVertices
  sideLoop impl.cur pure numSides fuel 0
  impl.drawArrays numVertices

def drawDisk (impl : DebugRendererImpl) (buffer : VtxBuffer) (fuel : ℕ) (numSides : U32) :
    Effect Event DebugRendererImpl := do
  let numVertices := numSides + 2
  impl.checkVtxBuffer buffer numVertices
  assign impl.cur 0
  sideLoop impl.cur succ numSides fuel 0
  impl.drawArrays numVertices

/-- The characters `'\n'`, `'\t'` and `'\r'`. -/
def isSpacing (c : ℕ) : Bool := c == 0x0a || c == 0x09 || c == 0x0d

/-- `vertices[mVtxOffset++]` is assigned, four times for a glyph. -/
def glyphLoop (mCurVtxMap : Ptr) : List ℕ → U64 → Effect Event U64
  | [], mVtxOffset => pure mVtxOffset
  | c :: rest, mVtxOffset =>
    if c = 0 then pure mVtxOffset
    else if isSpacing c then glyphLoop mCurVtxMap rest mVtxOffset
    else do
      .emit (.write (mCurVtxMap + mVtxOffset * cVertexSize))
      .emit (.write (mCurVtxMap + (mVtxOffset + 1) * cVertexSize))
      .emit (.write (mCurVtxMap + (mVtxOffset + 2) * cVertexSize))
      .emit (.write (mCurVtxMap + (mVtxOffset + 3) * cVertexSize))
      glyphLoop mCurVtxMap rest (mVtxOffset + 4)

/-- `std::char_traits<Char>::length`. -/
def stringLength (str : List ℕ) : ℕ := (str.takeWhile (· ≠ 0)).length

/-- A string is its characters up to a zero or the end of the list. -/
def drawString (impl : DebugRendererImpl) (buffer : VtxBuffer) (str : List ℕ) :
    Effect Event DebugRendererImpl := do
  impl.checkVtxBuffer buffer (.ofNat 32 (stringLength str * 4))
  let initialOffset := impl.mVtxOffset
  let mVtxOffset ← glyphLoop impl.mCurVtxMap str impl.mVtxOffset
  .emit (.drawArrays (initialOffset.setWidth 32) ((mVtxOffset - initialOffset).setWidth 32))
  return { impl with mVtxOffset := mVtxOffset }

end DebugRendererImpl

inductive Call where
  | clear
  | drawTri (a b c : Vertex)
  | drawQuad (tl tr br bl : Vertex) (round : F32) (numSides : U32)
  | drawLine (a b : Vertex)
  | drawCircle (numSides : U32)
  | drawDisk (numSides : U32)
  | drawString (str : List ℕ)

def DebugRendererImpl.run (impl : DebugRendererImpl) (buffer : VtxBuffer) (fuel : ℕ) :
    Call → Effect Event DebugRendererImpl
  | .clear => pure (impl.clear buffer)
  | .drawTri _ _ _ => impl.drawTri buffer
  | .drawQuad tl tr br bl round numSides => impl.drawQuad buffer fuel tl tr br bl round numSides
  | .drawLine _ _ => impl.drawLine buffer
  | .drawCircle numSides => impl.drawCircle buffer fuel numSides
  | .drawDisk numSides => impl.drawDisk buffer fuel numSides
  | .drawString str => impl.drawString buffer str

end Hakkun.Gfx
