import Hakkun.Model.Gfx.DebugRenderer

/-! # The vertex buffer of the debug renderer

What is checked is a count of 32 bits, the loops count on. As long as the count that a call asks for
does not reach 32 bits, and an `f32` counts the sides of a rounded quad one by one, each call writes
the vertices that it announces, one after the other, behind those of the calls before.
-/

namespace Hakkun.Gfx

open Machine.Core DebugRendererImpl

section Loops

variable {cur : Ptr} {numSides : U32}

/-- Consecutive vertices. -/
def writes (cur : Ptr) (first count : ℕ) : List Event :=
  (List.range' first count).map fun i => .write (cur + BitVec.ofNat 64 i * cVertexSize)

@[simp] theorem writes_zero (cur : Ptr) (first : ℕ) : writes cur first 0 = [] := rfl

theorem writes_succ (cur : Ptr) (first count : ℕ) : writes cur first (count + 1) =
    .write (cur + BitVec.ofNat 64 first * cVertexSize) :: writes cur (first + 1) count := rfl

theorem writes_append (cur : Ptr) (first one two : ℕ) :
    writes cur first one ++ writes cur (first + one) two = writes cur first (one + two) := by
  rw [writes, writes, writes, ← List.map_append, ← List.range'_append_1]

theorem succ_of_lt {i : ℕ} (bound : i + 1 < 2 ^ 31) : succ i = ⟨[], .returned (i + 1)⟩ :=
  if_pos bound

theorem push_of_lt {v : ℕ} (bound : v + 1 < 2 ^ 31) :
    push cur v = ⟨writes cur v 1, .returned (v + 1)⟩ := by
  rw [push, succ_of_lt bound]
  rfl

theorem assignAll_eq {count i : ℕ} (bound : i + count < 2 ^ 31) :
    assignAll cur count i = ⟨writes cur i count, .returned ()⟩ := by
  induction count generalizing i with
  | zero => rfl
  | succ count ih =>
    rw [assignAll, push_of_lt (by omega), Effect.returned_bind, ih (by omega), writes_append,
      Nat.add_comm 1 count]

/-- An `f32` has every natural number up to 2^24. -/
theorem F32.ofNat_of_le {value : ℕ} (bound : value ≤ 2 ^ 24) : F32.ofNat value = value := by
  rcases Nat.lt_or_eq_of_le bound with small | rfl
  · have log : value.log2 ≤ 23 := by
      rcases Nat.eq_zero_or_pos value with rfl | positive
      · decide
      · exact Nat.le_of_lt_succ ((Nat.log2_lt positive.ne').mpr small)
    have ulp : 2 ^ (value.log2 - 23) = 1 := by rw [Nat.sub_eq_zero_of_le log, Nat.pow_zero]
    simp [F32.ofNat, ulp, Nat.mod_one]
  · decide

theorem roundLoop_ends (exact_ : numSides.toNat ≤ 2 ^ 24) {j v : ℕ} (below : j ≤ numSides.toNat)
    (bound : v + (numSides.toNat - j) < 2 ^ 31) :
    Ends (fun fuel => roundLoop cur numSides fuel j v)
      ⟨writes cur v (numSides.toNat - j), .returned (v + (numSides.toNat - j))⟩ := by
  have sides := F32.ofNat_of_le exact_
  induction left : numSides.toNat - j generalizing j v with
  | zero =>
    apply Ends.of_succ
    apply Ends.of_forall
    intro fuel
    rw [roundLoop, if_neg (by omega)]
    rfl
  | succ left' ih =>
    have next : F32.ofNat (j + 1) = j + 1 := F32.ofNat_of_le (by omega)
    have later := @ih (j + 1) (v + 1) (by omega) (by omega) (by omega)
    have here : ∀ fuel, roundLoop cur numSides (fuel + 1) j v =
        (⟨writes cur v 1, .returned (v + 1)⟩ : Effect Event ℕ) >>= fun v =>
          roundLoop cur numSides fuel (j + 1) v := by
      intro fuel
      rw [roundLoop, if_pos (by omega), push_of_lt (by omega), next]
    apply Ends.of_succ
    apply Ends.congr here
    rw [Nat.add_comm left' 1, ← writes_append, ← Nat.add_assoc]
    exact Effect.ends_returned_bind later

theorem cornerLoop_ends (exact_ : numSides.toNat ≤ 2 ^ 24) {left v : ℕ}
    (bound : v + left * (numSides.toNat + 2) < 2 ^ 31) :
    Ends (fun fuel => cornerLoop cur numSides fuel left v)
      ⟨writes cur v (left * (numSides.toNat + 2)),
        .returned (v + left * (numSides.toNat + 2))⟩ := by
  induction left generalizing v with
  | zero =>
    apply Ends.of_forall
    intro fuel
    rw [Nat.zero_mul]
    rfl
  | succ left ih =>
    rw [Nat.succ_mul] at bound ⊢
    have arc := @roundLoop_ends cur numSides exact_ 0 (v + 1 + 1) (Nat.zero_le _) (by omega)
    rw [Nat.sub_zero] at arc
    have later := @ih (v + 1 + 1 + numSides.toNat) (by omega)
    have here : ∀ fuel, cornerLoop cur numSides fuel (left + 1) v =
        (⟨writes cur v 1, .returned (v + 1)⟩ : Effect Event ℕ) >>= fun _ =>
          (⟨writes cur (v + 1) 1, .returned (v + 1 + 1)⟩ : Effect Event ℕ) >>= fun v =>
            roundLoop cur numSides fuel 0 v >>= fun v => cornerLoop cur numSides fuel left v := by
      intro fuel
      rw [cornerLoop, push_of_lt (by omega), Effect.returned_bind, push_of_lt (by omega)]
      rfl
    have count : left * (numSides.toNat + 2) + (numSides.toNat + 2) =
      1 + (1 + (numSides.toNat + left * (numSides.toNat + 2))) := by omega
    have last : v + (left * (numSides.toNat + 2) + (numSides.toNat + 2)) =
      v + 1 + 1 + numSides.toNat + left * (numSides.toNat + 2) := by omega
    apply Ends.congr here
    rw [last, count, ← writes_append, ← writes_append, ← writes_append]
    exact Effect.ends_returned_bind (Effect.ends_returned_bind (Effect.ends_bind arc later))

/-- The loop of a circle, and of a disk, whose index is one more. -/
theorem sideLoop_ends {index : ℕ → Effect Event ℕ} {shift : ℕ}
    (indexed : ∀ i ≤ numSides.toNat, index i = ⟨[], .returned (i + shift)⟩)
    (bound : numSides.toNat + 1 < 2 ^ 31) {i : ℕ} (below : i ≤ numSides.toNat + 1) :
    Ends (fun fuel => sideLoop cur index numSides fuel i)
      ⟨writes cur (i + shift) (numSides.toNat + 1 - i), .returned ()⟩ := by
  induction left : numSides.toNat + 1 - i generalizing i with
  | zero =>
    apply Ends.of_succ
    apply Ends.of_forall
    intro fuel
    rw [sideLoop, if_neg (by omega)]
    rfl
  | succ left' ih =>
    have later := @ih (i + 1) (by omega) (by omega)
    have here : ∀ fuel, sideLoop cur index numSides (fuel + 1) i =
        (⟨writes cur (i + shift) 1, .returned (i + 1)⟩ : Effect Event ℕ) >>= fun i =>
          sideLoop cur index numSides fuel i := by
      intro fuel
      rw [sideLoop, if_pos (by omega), indexed i (by omega), succ_of_lt (by omega)]
      rfl
    apply Ends.of_succ
    apply Ends.congr here
    rw [Nat.add_comm left' 1, ← writes_append, Nat.add_right_comm i shift 1]
    exact Effect.ends_returned_bind later

end Loops

section Strings

/-- The characters that are drawn. -/
def glyphs (str : List ℕ) : ℕ := ((str.takeWhile (· ≠ 0)).filter fun c => !isSpacing c).length

theorem glyphs_le (str : List ℕ) : glyphs str ≤ stringLength str := List.length_filter_le _ _

theorem glyphLoop_eq {map : Ptr} {str : List ℕ} {offset : ℕ}
    (bound : offset + 4 * glyphs str < 2 ^ 64) :
    glyphLoop map str (BitVec.ofNat 64 offset) = ⟨writes map offset (4 * glyphs str),
      .returned (BitVec.ofNat 64 (offset + 4 * glyphs str))⟩ := by
  induction str generalizing offset with
  | nil => rfl
  | cons c rest ih =>
    rw [glyphLoop]
    split_ifs with terminator spacing
    · subst terminator
      rfl
    · have skipped : glyphs (c :: rest) = glyphs rest := by
        simp [glyphs, terminator, spacing]
      rw [skipped] at bound ⊢
      exact ih bound
    · have drawn : 4 * glyphs (c :: rest) = 4 + 4 * glyphs rest := by
        simp [glyphs, terminator, spacing]
        omega
      rw [drawn] at bound ⊢
      have moved : BitVec.ofNat 64 offset + 4 = BitVec.ofNat 64 (offset + 4) :=
        (BitVec.ofNat_add offset 4).symm
      have four : writes map offset 4 = [.write (map + BitVec.ofNat 64 offset * cVertexSize),
          .write (map + (BitVec.ofNat 64 offset + 1) * cVertexSize),
          .write (map + (BitVec.ofNat 64 offset + 2) * cVertexSize),
          .write (map + (BitVec.ofNat 64 offset + 3) * cVertexSize)] := by
        simp [writes, List.range'_succ, BitVec.ofNat_add, Nat.add_assoc]
      rw [moved, ih (by omega), ← writes_append, Nat.add_assoc, four]
      rfl

end Strings

section Calls

variable {buffer : VtxBuffer} {impl : DebugRendererImpl} {call : Call}

/-- The number of vertices that a call asks for. -/
def Call.vertices : Call → ℕ
  | clear => 0
  | drawTri _ _ _ => 3
  | drawQuad _ _ _ _ round numSides => if round.leZero then 4 else 10 + 4 * numSides.toNat
  | drawLine _ _ => 2
  | drawCircle numSides => numSides.toNat + 1
  | drawDisk numSides => numSides.toNat + 2
  | drawString str => 4 * glyphs str

/-- The number that is checked. -/
def Call.addSize : Call → U32
  | clear => 0
  | drawTri _ _ _ => 3
  | drawQuad _ _ _ _ round numSides => if round.leZero then 4 else 10 + 4 * numSides
  | drawLine _ _ => 2
  | drawCircle numSides => numSides + 1
  | drawDisk numSides => numSides + 2
  | drawString str => .ofNat 32 (stringLength str * 4)

/-- A rounded quad has to be axis aligned. -/
def Call.aligned : Call → Bool
  | drawQuad tl tr br bl round _ => round.leZero || axisAligned tl tr br bl
  | _ => true

/-- What is asserted for a number of vertices. -/
def Room (buffer : VtxBuffer) (impl : DebugRendererImpl) (addSize : U32) : Prop :=
  (impl.mVtxOffset + addSize.setWidth 64) * cVertexSize < buffer.cVtxBufferSize

instance (addSize : U32) : Decidable (Room buffer impl addSize) :=
  inferInstanceAs (Decidable (_ < _))

/-- The assertions of a call. -/
def Accepts (buffer : VtxBuffer) (impl : DebugRendererImpl) (call : Call) : Prop :=
  call.aligned ∧ Room buffer impl call.addSize

/-- What a call draws: as many vertices as it announces, one after the other behind the offset. -/
def drawn (impl : DebugRendererImpl) (count : ℕ) : Effect Event DebugRendererImpl where
  events := writes impl.mCurVtxMap impl.mVtxOffset.toNat count ++
    [.drawArrays (impl.mVtxOffset.setWidth 32) (.ofNat 32 count)]
  outcome := .returned { impl with mVtxOffset := impl.mVtxOffset + .ofNat 64 count }

theorem writes_cur (impl : DebugRendererImpl) (first count : ℕ) : writes impl.cur first count =
    writes impl.mCurVtxMap (impl.mVtxOffset.toNat + first) count := by
  have shifted : List.range' (impl.mVtxOffset.toNat + first) count =
      (List.range' first count).map (impl.mVtxOffset.toNat + ·) :=
    (List.map_add_range' first count 1).symm
  rw [writes, writes, shifted, List.map_map]
  apply List.map_congr_left
  intro i _
  show Event.write _ = Event.write _
  rw [cur, BitVec.ofNat_add, BitVec.ofNat_toNat, BitVec.setWidth_eq, BitVec.add_mul,
    BitVec.add_assoc]

theorem drawArrays_eq {count : U32} {n : ℕ} (value : count.toNat = n) : impl.drawArrays count =
    ⟨[.drawArrays (impl.mVtxOffset.setWidth 32) (.ofNat 32 n)],
      .returned { impl with mVtxOffset := impl.mVtxOffset + .ofNat 64 n }⟩ := by
  rw [← value, BitVec.ofNat_toNat, BitVec.setWidth_eq, BitVec.ofNat_toNat]
  rfl

theorem checkVtxBuffer_of_room {addSize : U32} (room : Room buffer impl addSize) :
    impl.checkVtxBuffer buffer addSize = ⟨[], .returned ()⟩ := if_pos (decide_eq_true room)

theorem checkVtxBuffer_of_not {addSize : U32} (full : ¬Room buffer impl addSize) :
    impl.checkVtxBuffer buffer addSize = ⟨[], .aborted⟩ := if_neg (by simpa [Room] using full)

theorem drawGiven_eq {count : ℕ} (small : count < 2 ^ 31)
    (room : Room buffer impl (.ofNat 32 count)) :
    impl.drawGiven buffer count = drawn impl count := by
  have value : (BitVec.ofNat 32 count).toNat = count :=
    Nat.mod_eq_of_lt (Nat.lt_of_lt_of_le small (by decide))
  rw [drawGiven, checkVtxBuffer_of_room room, assignAll_eq (by omega), drawArrays_eq value,
    writes_cur]
  rfl

theorem rounded_toNat {numSides : U32} (counted : numSides.toNat ≤ 2 ^ 24) :
    (10 + 4 * numSides).toNat = 10 + 4 * numSides.toNat := by
  have ten : (10 : U32).toNat = 10 := rfl
  have four : (4 : U32).toNat = 4 := rfl
  rw [BitVec.toNat_add, BitVec.toNat_mul, ten, four]
  omega

theorem drawQuadRoundImpl_ends {tl tr br bl : Vertex} {numSides : U32}
    (counted : numSides.toNat ≤ 2 ^ 24) (aligned : axisAligned tl tr br bl)
    (room : Room buffer impl (10 + 4 * numSides)) :
    Ends (fun fuel => impl.drawQuadRoundImpl buffer fuel tl tr br bl numSides)
      (drawn impl (10 + 4 * numSides.toNat)) := by
  have value := rounded_toNat counted
  have corners := @cornerLoop_ends impl.cur numSides counted 4 (0 + 1) (by omega)
  have here : ∀ fuel, impl.drawQuadRoundImpl buffer fuel tl tr br bl numSides =
      (⟨writes impl.cur 0 1, .returned 1⟩ : Effect Event ℕ) >>= fun v =>
        cornerLoop impl.cur numSides fuel 4 v >>= fun v => push impl.cur v >>= fun _ =>
          impl.drawArrays (10 + 4 * numSides) := by
    intro fuel
    have checked : (.abortUnless (axisAligned tl tr br bl) : Effect Event Unit) =
      ⟨[], .returned ()⟩ := if_pos aligned
    show _ >>= (fun _ => impl.checkVtxBuffer buffer (10 + 4 * numSides) >>= fun _ => _) = _
    rw [checked, checkVtxBuffer_of_room room]
    rfl
  have last : ∀ _ : ℕ, (push impl.cur (0 + 1 + 4 * (numSides.toNat + 2)) >>= fun _ =>
      impl.drawArrays (10 + 4 * numSides)) =
        ⟨writes impl.cur (0 + 1 + 4 * (numSides.toNat + 2)) 1 ++
          [.drawArrays (impl.mVtxOffset.setWidth 32) (.ofNat 32 (10 + 4 * numSides.toNat))],
          .returned { impl with
            mVtxOffset := impl.mVtxOffset + .ofNat 64 (10 + 4 * numSides.toNat) }⟩ := by
    intro _
    rw [push_of_lt (by omega), drawArrays_eq value, Effect.returned_bind]
  have parts : writes impl.mCurVtxMap impl.mVtxOffset.toNat (10 + 4 * numSides.toNat) =
      writes impl.cur 0 1 ++ (writes impl.cur (0 + 1) (4 * (numSides.toNat + 2)) ++
        writes impl.cur (0 + 1 + 4 * (numSides.toNat + 2)) 1) := by
    rw [writes_append, writes_append, writes_cur]
    congr 1
    omega
  apply Ends.congr here
  rw [drawn, parts, List.append_assoc, List.append_assoc]
  exact Effect.ends_returned_bind (Effect.ends_bind corners (Ends.of_forall last))

theorem drawCircle_ends {numSides : U32} (small : numSides.toNat + 1 < 2 ^ 31)
    (room : Room buffer impl (numSides + 1)) :
    Ends (fun fuel => impl.drawCircle buffer fuel numSides) (drawn impl (numSides.toNat + 1)) := by
  have value : (numSides + 1).toNat = numSides.toNat + 1 :=
    BitVec.toNat_add_of_lt (Nat.lt_trans small (by decide))
  have indexed : ∀ i ≤ numSides.toNat, (Pure.pure i : Effect Event ℕ) = ⟨[], .returned (i + 0)⟩ :=
    fun _ _ => rfl
  have loop := @sideLoop_ends impl.cur _ _ _ indexed small _ (Nat.zero_le _)
  have here : ∀ fuel, impl.drawCircle buffer fuel numSides =
      sideLoop impl.cur Pure.pure numSides fuel 0 >>= fun _ =>
        impl.drawArrays (numSides + 1) := by
    intro fuel
    rw [drawCircle, checkVtxBuffer_of_room room]
    rfl
  have last : Ends (fun _ : ℕ => impl.drawArrays (numSides + 1)) _ :=
    Ends.of_forall fun _ => drawArrays_eq value
  rw [Nat.sub_zero, Nat.add_zero] at loop
  apply Ends.congr here
  rw [drawn, ← Nat.add_zero impl.mVtxOffset.toNat, ← writes_cur]
  exact Effect.ends_bind loop last

theorem drawDisk_ends {numSides : U32} (small : numSides.toNat + 2 < 2 ^ 31)
    (room : Room buffer impl (numSides + 2)) :
    Ends (fun fuel => impl.drawDisk buffer fuel numSides) (drawn impl (numSides.toNat + 2)) := by
  have value : (numSides + 2).toNat = numSides.toNat + 2 :=
    BitVec.toNat_add_of_lt (Nat.lt_trans small (by decide))
  have indexed : ∀ i ≤ numSides.toNat, succ i = ⟨[], .returned (i + 1)⟩ :=
    fun i below => succ_of_lt (by omega)
  have loop := @sideLoop_ends impl.cur _ _ _ indexed (by omega) _ (Nat.zero_le _)
  have here : ∀ fuel, impl.drawDisk buffer fuel numSides =
      (⟨writes impl.cur 0 1, .returned ()⟩ : Effect Event Unit) >>= fun _ =>
        sideLoop impl.cur succ numSides fuel 0 >>= fun _ => impl.drawArrays (numSides + 2) := by
    intro fuel
    rw [drawDisk, checkVtxBuffer_of_room room]
    rfl
  have last : Ends (fun _ : ℕ => impl.drawArrays (numSides + 2)) _ :=
    Ends.of_forall fun _ => drawArrays_eq value
  have parts : writes impl.mCurVtxMap impl.mVtxOffset.toNat (numSides.toNat + 2) =
      writes impl.cur 0 1 ++ writes impl.cur (0 + 1) (numSides.toNat + 1) := by
    rw [writes_append, writes_cur, Nat.add_comm 1]
    rfl
  rw [Nat.sub_zero] at loop
  apply Ends.congr here
  rw [drawn, parts, List.append_assoc]
  exact Effect.ends_returned_bind (Effect.ends_bind loop last)

theorem drawString_eq {str : List ℕ} (small : impl.mVtxOffset.toNat + 4 * glyphs str < 2 ^ 64)
    (room : Room buffer impl (.ofNat 32 (stringLength str * 4))) :
    impl.drawString buffer str = drawn impl (4 * glyphs str) := by
  have loop := @glyphLoop_eq impl.mCurVtxMap _ _ small
  rw [BitVec.ofNat_add, BitVec.ofNat_toNat, BitVec.setWidth_eq] at loop
  have count : (impl.mVtxOffset + BitVec.ofNat 64 (4 * glyphs str) - impl.mVtxOffset).setWidth 32 =
      BitVec.ofNat 32 (4 * glyphs str) := by
    rw [BitVec.add_comm, BitVec.add_sub_cancel]
    apply BitVec.eq_of_toNat_eq
    simp
  rw [drawString, checkVtxBuffer_of_room room, Effect.returned_bind, loop]
  simp only [Effect.returned_bind, Effect.emit_bind, count]
  rfl

/-- The number that is checked is not cut to 32 bits, or that of the glyphs of a string fits all the
same, and an `f32` counts the sides of the corners. -/
def Counted (buffer : VtxBuffer) (impl : DebugRendererImpl) : Call → Prop
  | .drawQuad _ _ _ _ round numSides => round.leZero ∨ numSides.toNat ≤ 2 ^ 24
  | .drawCircle numSides => numSides.toNat + 1 < 2 ^ 32
  | .drawDisk numSides => numSides.toNat + 2 < 2 ^ 32
  | .drawString str => stringLength str * 4 < 2 ^ 32 ∨
    (impl.mVtxOffset.toNat + 4 * glyphs str) * 20 ≤ buffer.cVtxBufferSize.toNat
  | _ => True

/-- What was drawn is inside the buffer. -/
def Inside (buffer : VtxBuffer) (impl : DebugRendererImpl) : Prop :=
  impl.mVtxOffset.toNat * 20 ≤ buffer.cVtxBufferSize.toNat

theorem Room.toNat {addSize : U32} (room : Room buffer impl addSize) (inside : Inside buffer impl) :
    (impl.mVtxOffset.toNat + addSize.toNat) * 20 < buffer.cVtxBufferSize.toNat := by
  have size : cVertexSize.toNat = 20 := rfl
  have small : buffer.cVtxBufferSize.toNat < 2 ^ 32 := buffer.small
  have bound := addSize.isLt
  rw [Inside] at inside
  rw [Room, BitVec.lt_def, BitVec.toNat_mul, BitVec.toNat_add, BitVec.toNat_setWidth, size] at room
  omega

/-- What is drawn is inside the buffer as well. -/
theorem room_of_accepts (inside : Inside buffer impl) (accepts : Accepts buffer impl call)
    (counted : Counted buffer impl call) :
    (impl.mVtxOffset.toNat + call.vertices) * 20 ≤ buffer.cVtxBufferSize.toNat := by
  have room := accepts.2.toNat inside
  cases call with
  | clear => exact inside
  | drawTri a b c => exact Nat.le_of_lt room
  | drawLine a b => exact Nat.le_of_lt room
  | drawQuad tl tr br bl round numSides =>
    simp only [Call.addSize, Call.vertices, Counted] at room counted ⊢
    split_ifs at room ⊢ with flat
    · exact Nat.le_of_lt room
    · rw [rounded_toNat (counted.resolve_left flat)] at room
      exact Nat.le_of_lt room
  | drawCircle numSides =>
    have value : (numSides + 1).toNat = numSides.toNat + 1 := BitVec.toNat_add_of_lt counted
    rw [Call.addSize, value] at room
    exact Nat.le_of_lt room
  | drawDisk numSides =>
    have value : (numSides + 2).toNat = numSides.toNat + 2 := BitVec.toNat_add_of_lt counted
    rw [Call.addSize, value] at room
    exact Nat.le_of_lt room
  | drawString str =>
    rcases counted with short | fits
    · have value : (BitVec.ofNat 32 (stringLength str * 4)).toNat = stringLength str * 4 :=
        Nat.mod_eq_of_lt short
      have drawn := glyphs_le str
      rw [Call.addSize, value] at room
      rw [Call.vertices]
      omega
    · exact fits

theorem run_ends (drawing : call ≠ .clear) (inside : Inside buffer impl)
    (accepts : Accepts buffer impl call) (counted : Counted buffer impl call) :
    Ends (fun fuel => impl.run buffer fuel call) (drawn impl call.vertices) := by
  have small : impl.mVtxOffset.toNat + call.vertices < 2 ^ 31 := by
    have fits := room_of_accepts inside accepts counted
    have : buffer.cVtxBufferSize.toNat < 2 ^ 32 := buffer.small
    omega
  obtain ⟨aligned, room⟩ := accepts
  cases call with
  | clear => exact absurd rfl drawing
  | drawTri a b c => exact Ends.of_forall fun _ => drawGiven_eq (by decide) room
  | drawLine a b => exact Ends.of_forall fun _ => drawGiven_eq (by decide) room
  | drawQuad tl tr br bl round numSides =>
    cases flat : round.leZero with
    | true =>
      simp only [Call.addSize, flat, if_true] at room
      apply Ends.of_forall
      intro _
      simp only [DebugRendererImpl.run, drawQuad, Call.vertices, flat, if_true]
      exact drawGiven_eq (by decide) room
    | false =>
      simp only [Counted, Call.addSize, Call.aligned, flat, Bool.false_eq_true, if_false,
        false_or, Bool.false_or] at counted room aligned
      simp only [DebugRendererImpl.run, drawQuad, Call.vertices, flat, Bool.false_eq_true, if_false]
      exact drawQuadRoundImpl_ends counted aligned room
  | drawCircle numSides =>
    rw [Call.vertices] at small
    exact drawCircle_ends (by omega) room
  | drawDisk numSides =>
    rw [Call.vertices] at small
    exact drawDisk_ends (by omega) room
  | drawString str =>
    rw [Call.vertices] at small
    exact Ends.of_forall fun _ => drawString_eq (by omega) room

theorem checkVtxBuffer_bind_of_not {addSize : U32} (full : ¬Room buffer impl addSize)
    (rest : Unit → Effect Event DebugRendererImpl) :
    impl.checkVtxBuffer buffer addSize >>= rest = ⟨[], .aborted⟩ := by
  rw [checkVtxBuffer_of_not full, Effect.aborted_bind]

theorem run_aborts (drawing : call ≠ .clear) (refused : ¬Accepts buffer impl call) (fuel : ℕ) :
    impl.run buffer fuel call = ⟨[], .aborted⟩ := by
  have full (aligned : call.aligned) : ¬Room buffer impl call.addSize :=
    fun room => refused ⟨aligned, room⟩
  cases call with
  | clear => exact absurd rfl drawing
  | drawTri a b c => exact checkVtxBuffer_bind_of_not (full rfl) _
  | drawLine a b => exact checkVtxBuffer_bind_of_not (full rfl) _
  | drawQuad tl tr br bl round numSides =>
    cases flat : round.leZero with
    | true =>
      simp only [Call.addSize, Call.aligned, flat, if_true, Bool.true_or, true_imp_iff] at full
      simp only [DebugRendererImpl.run, drawQuad, flat, if_true]
      exact checkVtxBuffer_bind_of_not full _
    | false =>
      simp only [Call.addSize, Call.aligned, flat, Bool.false_eq_true, if_false,
        Bool.false_or] at full
      simp only [DebugRendererImpl.run, drawQuad, flat, Bool.false_eq_true, if_false]
      rw [drawQuadRoundImpl]
      cases aligned : axisAligned tl tr br bl with
      | false => rfl
      | true => exact checkVtxBuffer_bind_of_not (full aligned) _
  | drawCircle numSides => exact checkVtxBuffer_bind_of_not (full rfl) _
  | drawDisk numSides => exact checkVtxBuffer_bind_of_not (full rfl) _
  | drawString str => exact checkVtxBuffer_bind_of_not (full rfl) _

end Calls

section Runs

variable {buffer : VtxBuffer} {impl impl' : DebugRendererImpl} {call : Call}

/-- What is announced is inside the buffer, and is what is written. -/
def Draws (buffer : VtxBuffer) (call : Call) (events : List Event) : Prop :=
  ∃ first, (first + call.vertices) * 20 ≤ buffer.cVtxBufferSize.toNat ∧
    events = writes buffer.map first call.vertices ++
      [.drawArrays (.ofNat 32 first) (.ofNat 32 call.vertices)]

/-- A call comes to an end; it aborts before it writes, or draws what it is asked for. -/
def Behaves (buffer : VtxBuffer) (impl : DebugRendererImpl) (call : Call) : Prop :=
  ∃ effect, Ends (fun fuel => impl.run buffer fuel call) effect ∧
    (effect = ⟨[], .aborted⟩ ∨ ∃ impl', effect.outcome = .returned impl' ∧
      (call = .clear ∧ effect.events = [] ∨ Draws buffer call effect.events))

/-- The condition for a call: it is refused, or the buffer is mapped and the count is right. -/
def Meets (buffer : VtxBuffer) (impl : DebugRendererImpl) (call : Call) : Prop :=
  call = .clear ∨ ¬Accepts buffer impl call ∨
    (call.vertices = 0 ∨ impl.mCurVtxMap = buffer.map) ∧ Counted buffer impl call

/-- A call that meets the condition and returns. -/
def Steps (buffer : VtxBuffer) (impl impl' : DebugRendererImpl) : Prop :=
  ∃ call effect, Meets buffer impl call ∧ Ends (fun fuel => impl.run buffer fuel call) effect ∧
    effect.outcome = .returned impl'

/-- The states of the runs whose every call meets the condition. -/
def Reaches (buffer : VtxBuffer) : DebugRendererImpl → Prop :=
  Relation.ReflTransGen (Steps buffer) {}

/-- What a call does that meets the condition. -/
theorem Meets.ends (meets : Meets buffer impl call) (inside : Inside buffer impl) :
    call = .clear ∧
      Ends (fun fuel => impl.run buffer fuel call) ⟨[], .returned (impl.clear buffer)⟩ ∨
    Ends (fun fuel => impl.run buffer fuel call) ⟨[], .aborted⟩ ∨
    (call.vertices = 0 ∨ impl.mCurVtxMap = buffer.map) ∧
      (impl.mVtxOffset.toNat + call.vertices) * 20 ≤ buffer.cVtxBufferSize.toNat ∧
      Ends (fun fuel => impl.run buffer fuel call) (drawn impl call.vertices) := by
  by_cases drawing : call = .clear
  · subst drawing
    exact .inl ⟨rfl, Ends.of_forall fun _ => rfl⟩
  · by_cases accepts : Accepts buffer impl call
    · obtain ⟨mapped, counted⟩ := (meets.resolve_left drawing).resolve_left (not_not_intro accepts)
      exact .inr (.inr ⟨mapped, room_of_accepts inside accepts counted,
        run_ends drawing inside accepts counted⟩)
    · exact .inr (.inl (Ends.of_forall (run_aborts drawing accepts)))

theorem Inside.step (inside : Inside buffer impl) (step : Steps buffer impl impl') :
    Inside buffer impl' := by
  obtain ⟨call, effect, meets, ends, returned⟩ := step
  rcases meets.ends inside with ⟨-, clears⟩ | aborts | ⟨-, room, draws⟩
  · rw [← clears.unique ends] at returned
    cases returned
    exact Nat.zero_le _
  · rw [← aborts.unique ends] at returned
    cases returned
  · rw [← draws.unique ends] at returned
    cases returned
    have small : buffer.cVtxBufferSize.toNat < 2 ^ 32 := buffer.small
    show (impl.mVtxOffset + BitVec.ofNat 64 call.vertices).toNat * 20 ≤ _
    rw [BitVec.toNat_add, BitVec.toNat_ofNat]
    omega

theorem Reaches.inside (reaches : Reaches buffer impl) : Inside buffer impl := by
  induction reaches with
  | refl => exact Nat.zero_le _
  | tail _ step inside => exact inside.step step

/-- In every run whose calls meet the condition, every call draws what it announces. -/
theorem behaves_of_meets (reaches : Reaches buffer impl) (meets : Meets buffer impl call) :
    Behaves buffer impl call := by
  rcases meets.ends reaches.inside with ⟨clear, clears⟩ | aborts | ⟨mapped, room, draws⟩
  · exact ⟨_, clears, .inr ⟨_, rfl, .inl ⟨clear, rfl⟩⟩⟩
  · exact ⟨_, aborts, .inl rfl⟩
  · have place : writes impl.mCurVtxMap impl.mVtxOffset.toNat call.vertices =
        writes buffer.map impl.mVtxOffset.toNat call.vertices := by
      rcases mapped with none_ | mapped
      · rw [none_, writes_zero, writes_zero]
      · rw [mapped]
    refine ⟨_, draws, .inr ⟨_, rfl, .inr ⟨_, room, ?_⟩⟩⟩
    rw [BitVec.ofNat_toNat, ← place]
    rfl

end Runs

section Default

/-- The default size, at some address. -/
def defaultBuffer : VtxBuffer where
  VTXBUFFER_SIZE := 0x1000
  map := 0x1000
  small := by decide
  inside := by decide

theorem behaves_circle :
    Behaves defaultBuffer (DebugRendererImpl.clear {} defaultBuffer) (.drawCircle 32) := by
  have cleared : Reaches defaultBuffer (DebugRendererImpl.clear {} defaultBuffer) :=
    .single ⟨.clear, _, .inl rfl, Ends.of_forall fun _ => rfl, rfl⟩
  have sides : (32 : U32).toNat + 1 < 2 ^ 32 := by decide
  exact behaves_of_meets cleared (.inr (.inr ⟨.inr rfl, sides⟩))

/-- The number of vertices of the largest circle is zero for the check; the loop writes all the
same. -/
theorem not_behaves_circle : Ends (fun fuel => DebugRendererImpl.run {} defaultBuffer fuel .clear)
      ⟨[], .returned (DebugRendererImpl.clear {} defaultBuffer)⟩ ∧
    ¬Behaves defaultBuffer (DebugRendererImpl.clear {} defaultBuffer)
      (.drawCircle 0xffffffff) := by
  refine ⟨Ends.of_forall fun _ => rfl, ?_⟩
  rintro ⟨effect, ends, rfl | ⟨impl', -, ⟨clear, -⟩ | ⟨first, room, -⟩⟩⟩
  · have later : Ends (fun fuel => DebugRendererImpl.run
        (DebugRendererImpl.clear {} defaultBuffer) defaultBuffer (fuel + 1)
          (.drawCircle 0xffffffff)) ⟨[], .aborted⟩ :=
      (Filter.tendsto_add_atTop_nat 1).eventually ends
    obtain ⟨fuel, aborts⟩ := later.exists
    have accepted : (DebugRendererImpl.clear {} defaultBuffer).checkVtxBuffer defaultBuffer
        (0xffffffff + 1) = ⟨[], .returned ()⟩ := checkVtxBuffer_of_room (by decide)
    have emits : (sideLoop (DebugRendererImpl.clear {} defaultBuffer).cur Pure.pure 0xffffffff
        (fuel + 1) 0).events ≠ [] := by
      rw [sideLoop, if_pos (Nat.zero_le _), Effect.pure_bind]
      exact Effect.bind_events_ne_nil (List.cons_ne_nil _ _) _
    have circle : (DebugRendererImpl.clear {} defaultBuffer).drawCircle defaultBuffer (fuel + 1)
      0xffffffff = ⟨[], .aborted⟩ := aborts
    rw [drawCircle, accepted, Effect.returned_bind] at circle
    exact Effect.bind_events_ne_nil emits _ (congrArg Effect.events circle)
  · cases clear
  · have size : defaultBuffer.cVtxBufferSize.toNat = 0x14000 := by decide
    have count : (Call.drawCircle 0xffffffff).vertices = 0x100000000 := by decide
    omega

end Default

end Hakkun.Gfx
