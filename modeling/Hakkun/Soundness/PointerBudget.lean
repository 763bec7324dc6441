import Hakkun.Machine.Core.Run
import Hakkun.Model.Sf.Request

/-! # The pointer buffer of a request

A request counts down what is left of the server's pointer buffer. An explicit pointer is counted
without a check, an output that is selected as a pointer is not counted, and an empty buffer is not
selected when nothing is left. Everywhere else the counter and the descriptors agree with the sizes
that were added.
-/

namespace Hakkun.Sf

open Hipc Machine

/-! ## Sizes -/

/-- The sizes of the descriptors of a request. -/
structure Sizes where
  sendStatics : List ℕ
  sendBuffers : List ℕ
  receiveBuffers : List ℕ
  receiveStatics : List ℕ
  outPointers : List ℕ

namespace FixedVec

variable {T : Type} {Capacity : ℕ} {vec : FixedVec T Capacity}

theorem exists_add (room : vec.elements.length < Capacity) (value : T) :
    ∃ next, vec.add value = some next ∧ next.elements = vec.elements ++ [value] :=
  ⟨_, dif_pos room, rfl⟩

theorem add_of_full (full : ¬ vec.elements.length < Capacity) (value : T) : vec.add value = none :=
  dif_neg full

end FixedVec

namespace Request

variable {request next : Request}

def sizes (request : Request) : Sizes where
  sendStatics := request.mHipcSendStatics.elements.map fun descriptor => descriptor.size.toNat
  sendBuffers := request.mHipcSendBuffers.elements.map fun descriptor => descriptor.size.toNat
  receiveBuffers := request.mHipcReceiveBuffers.elements.map fun descriptor =>
    descriptor.size.toNat
  receiveStatics := request.mHipcReceiveStatics.elements.map fun descriptor =>
    descriptor.size.toNat
  outPointers := request.mHipcOutPointerSizes.elements.map fun size => size.toNat

namespace Call

def size : Call → U64
  | .addInPointer _ size | .addOutFixedSizePointer _ size | .addOutPointer _ size
  | .addInAutoselect _ size _ | .addOutAutoselect _ size _ => size

def isAutoselect : Call → Bool
  | .addInPointer .. | .addOutFixedSizePointer .. | .addOutPointer .. => false
  | .addInAutoselect .. | .addOutAutoselect .. => true

/-- What a call should take from what is left. -/
def takes (call : Call) (left : ℕ) : ℕ :=
  if call.size.toNat ≤ left then call.size.toNat else 0

/-- The sizes that a call should add, as a pointer when it fits. -/
def adds (sizes : Sizes) (left : ℕ) : Call → Sizes
  | .addInPointer _ size => { sizes with sendStatics := sizes.sendStatics ++ [size.toNat] }
  | .addOutFixedSizePointer _ size =>
    { sizes with receiveStatics := sizes.receiveStatics ++ [size.toNat] }
  | .addOutPointer _ size =>
    { sizes with
      receiveStatics := sizes.receiveStatics ++ [size.toNat]
      outPointers := sizes.outPointers ++ [size.toNat] }
  | .addInAutoselect _ size _ =>
    if size.toNat ≤ left then
      { sizes with
        sendStatics := sizes.sendStatics ++ [size.toNat]
        sendBuffers := sizes.sendBuffers ++ [0] }
    else
      { sizes with
        sendStatics := sizes.sendStatics ++ [0]
        sendBuffers := sizes.sendBuffers ++ [size.toNat] }
  | .addOutAutoselect _ size _ =>
    if size.toNat ≤ left then
      { sizes with
        receiveStatics := sizes.receiveStatics ++ [size.toNat]
        receiveBuffers := sizes.receiveBuffers ++ [0]
        outPointers := sizes.outPointers ++ [size.toNat] }
    else
      { sizes with
        receiveStatics := sizes.receiveStatics ++ [0]
        receiveBuffers := sizes.receiveBuffers ++ [size.toNat] }

end Call

/-! ## Correct calls -/

/-- A request with the total size of the data that was added as pointers. -/
structure Counted where
  request : Request
  total : ℕ

/-- A request to a server with some pointer buffer. -/
def Counted.start (serverSize : BitVec 16) : Counted := ⟨{ mServerPointerSize := serverSize }, 0⟩

/-- What a call on a request promises when some of the pointer buffer is left. -/
structure Promised (request : Request) (left : ℕ) (call : Call) (next : Request) : Prop where
  rejects : call.isAutoselect = false → call.size.toNat ≤ left
  selects : call.isAutoselect = true →
    (request.selectsPointer call.size = true ↔ call.size.toNat ≤ left)
  counts : next.mServerPointerSize.toNat + call.takes left = left
  sizes : next.sizes = call.adds request.sizes left

def step (serverSize : ℕ) (state : Counted) (call : Call) : Option Counted :=
  (state.request.perform call).map fun next =>
    ⟨next, state.total + call.takes (serverSize - state.total)⟩

/-- A call that does not abort keeps its promise. -/
def Correct (serverSize : ℕ) (state : Counted) (call : Call) : Prop :=
  ∀ next, state.request.perform call = some next →
    Promised state.request (serverSize - state.total) call next

/-- The counter is what is left. -/
structure Counted.Inv (serverSize : ℕ) (state : Counted) : Prop where
  left : state.request.mServerPointerSize.toNat + state.total = serverSize

/-- No vector that a call adds to is full. -/
def HasRoom (request : Request) : Call → Prop
  | .addInPointer .. => request.mHipcSendStatics.elements.length < 8
  | .addOutFixedSizePointer .. => request.mHipcReceiveStatics.elements.length < 8
  | .addOutPointer .. => request.mHipcReceiveStatics.elements.length < 8 ∧
    request.mHipcOutPointerSizes.elements.length < 8
  | .addInAutoselect .. => request.mHipcSendStatics.elements.length < 8 ∧
    request.mHipcSendBuffers.elements.length < 8
  | .addOutAutoselect _ size _ => request.mHipcReceiveStatics.elements.length < 8 ∧
    request.mHipcReceiveBuffers.elements.length < 8 ∧
      (request.selectsPointer size = true → request.mHipcOutPointerSizes.elements.length < 8)

/-- An explicit pointer fits what is left; when data is selected there is something left or it does
not fit, an output that fits is empty, and what does not fit has a size of 36 bits. -/
def Fits (left : ℕ) : Call → Prop
  | .addInPointer _ size | .addOutFixedSizePointer _ size | .addOutPointer _ size =>
    size.toNat ≤ left
  | .addInAutoselect _ size _ => if size.toNat ≤ left then 0 < left else size.toNat < 2 ^ 36
  | .addOutAutoselect _ size _ =>
    if size.toNat ≤ left then 0 < left ∧ size = 0 else size.toNat < 2 ^ 36

/-- A call aborts or fits. -/
def Careful (state : Counted) (call : Call) : Prop :=
  state.request.HasRoom call → Fits state.request.mServerPointerSize.toNat call

/-! ## Single calls -/

theorem selectsPointer_iff (request : Request) (size : U64) : request.selectsPointer size = true ↔
    0 < request.mServerPointerSize.toNat ∧ size.toNat ≤ request.mServerPointerSize.toNat := by
  have := request.mServerPointerSize.isLt
  rw [selectsPointer, Bool.and_eq_true, decide_eq_true_iff, decide_eq_true_iff, gt_iff_lt,
    BitVec.lt_def, BitVec.le_def, BitVec.toNat_setWidth, Nat.mod_eq_of_lt (by omega)]
  rfl

theorem addInPointer_of_room (room : request.mHipcSendStatics.elements.length < 8) (data : U64)
    (size : BitVec 16) : ∃ statics,
      statics.elements = request.mHipcSendStatics.elements ++
        [.make request.mHipcStaticIdx data size] ∧
      request.addInPointer data size = some { request with
        mHipcStaticIdx := request.mHipcStaticIdx + 1
        mHipcSendStatics := statics
        mServerPointerSize := request.mServerPointerSize - size } := by
  obtain ⟨statics, add, elements⟩ :=
    FixedVec.exists_add room (Static.make request.mHipcStaticIdx data size)
  refine ⟨statics, elements, ?_⟩
  rw [addInPointer, add]
  rfl

theorem addOutFixedSizePointer_of_room (room : request.mHipcReceiveStatics.elements.length < 8)
    (data : U64) (size : BitVec 16) : ∃ statics,
      statics.elements = request.mHipcReceiveStatics.elements ++ [.make data size] ∧
      request.addOutFixedSizePointer data size = some { request with
        mHipcReceiveStatics := statics
        mServerPointerSize := request.mServerPointerSize - size } := by
  obtain ⟨statics, add, elements⟩ := FixedVec.exists_add room (ReceiveStatic.make data size)
  refine ⟨statics, elements, ?_⟩
  rw [addOutFixedSizePointer, add]
  rfl

theorem addOutPointer_of_room (room : request.mHipcReceiveStatics.elements.length < 8)
    (outRoom : request.mHipcOutPointerSizes.elements.length < 8) (data size : U64) :
    ∃ statics outs,
      statics.elements = request.mHipcReceiveStatics.elements ++ [.make data (size.setWidth 16)] ∧
      outs.elements = request.mHipcOutPointerSizes.elements ++ [size.setWidth 16] ∧
      request.addOutPointer data size = some { request with
        mHipcReceiveStatics := statics
        mHipcOutPointerSizes := outs
        mServerPointerSize := request.mServerPointerSize - size.setWidth 16 } := by
  obtain ⟨statics, elements, first⟩ :=
    addOutFixedSizePointer_of_room room data (size.setWidth 16)
  obtain ⟨outs, add, outElements⟩ := FixedVec.exists_add outRoom (size.setWidth 16)
  refine ⟨statics, outs, elements, outElements, ?_⟩
  rw [addOutPointer, first]
  change (request.mHipcOutPointerSizes.add _).bind _ = _
  rw [add]
  rfl

/-- The two descriptors of a selected input. -/
theorem addIn_of_room (room : request.mHipcSendStatics.elements.length < 8)
    (bufferRoom : request.mHipcSendBuffers.elements.length < 8) (data : U64) (size : BitVec 16)
    (buffer : Buffer) : ∃ statics buffers,
      statics.elements = request.mHipcSendStatics.elements ++
        [.make request.mHipcStaticIdx data size] ∧
      buffers.elements = request.mHipcSendBuffers.elements ++ [buffer] ∧
      ((request.addInPointer data size).bind fun next =>
        (next.mHipcSendBuffers.add buffer).bind fun mHipcSendBuffers =>
          some { next with mHipcSendBuffers }) = some { request with
        mHipcStaticIdx := request.mHipcStaticIdx + 1
        mHipcSendStatics := statics
        mHipcSendBuffers := buffers
        mServerPointerSize := request.mServerPointerSize - size } := by
  obtain ⟨statics, elements, first⟩ := addInPointer_of_room room data size
  obtain ⟨buffers, add, bufferElements⟩ := FixedVec.exists_add bufferRoom buffer
  refine ⟨statics, buffers, elements, bufferElements, ?_⟩
  rw [first]
  change (request.mHipcSendBuffers.add _).bind _ = _
  rw [add]
  rfl

/-- The two descriptors of a selected output. -/
theorem addOut_of_room (room : request.mHipcReceiveStatics.elements.length < 8)
    (bufferRoom : request.mHipcReceiveBuffers.elements.length < 8) (receive : ReceiveStatic)
    (buffer : Buffer) : ∃ statics buffers,
      statics.elements = request.mHipcReceiveStatics.elements ++ [receive] ∧
      buffers.elements = request.mHipcReceiveBuffers.elements ++ [buffer] ∧
      request.mHipcReceiveStatics.add receive = some statics ∧
      request.mHipcReceiveBuffers.add buffer = some buffers := by
  obtain ⟨statics, add, elements⟩ := FixedVec.exists_add room receive
  obtain ⟨buffers, bufferAdd, bufferElements⟩ := FixedVec.exists_add bufferRoom buffer
  exact ⟨statics, buffers, elements, bufferElements, add, bufferAdd⟩

/-! ## All calls -/

theorem setWidth_toNat_of_le {size : U64} {left : BitVec 16} (fits : size.toNat ≤ left.toNat) :
    (size.setWidth 16).toNat = size.toNat := by
  have := left.isLt
  rw [BitVec.toNat_setWidth, Nat.mod_eq_of_lt (by omega)]

/-- A size that fits is subtracted without wrapping around. -/
theorem sub_setWidth_toNat {size : U64} {left : BitVec 16} (fits : size.toNat ≤ left.toNat) :
    (left - size.setWidth 16).toNat + size.toNat = left.toNat := by
  have same := setWidth_toNat_of_le fits
  rw [BitVec.toNat_sub_of_le (by rwa [BitVec.le_def, same]), same]
  omega

variable {call : Call} {total serverSize : ℕ}

theorem correct_of_perform (performed : request.perform call = some next) :
    Correct serverSize ⟨request, total⟩ call ↔
      Promised request (serverSize - total) call next := by
  constructor
  · intro correct
    exact correct _ performed
  · rintro promised _ again
    obtain rfl := Option.some.inj (performed.symm.trans again)
    exact promised

theorem addInPointer_of_full (full : ¬ request.mHipcSendStatics.elements.length < 8) (data : U64)
    (size : BitVec 16) : request.addInPointer data size = none := by
  rw [addInPointer, FixedVec.add_of_full full]
  rfl

theorem addOutFixedSizePointer_of_full (full : ¬ request.mHipcReceiveStatics.elements.length < 8)
    (data : U64) (size : BitVec 16) : request.addOutFixedSizePointer data size = none := by
  rw [addOutFixedSizePointer, FixedVec.add_of_full full]
  rfl

theorem addIn_of_full (full : ¬ (request.mHipcSendStatics.elements.length < 8 ∧
    request.mHipcSendBuffers.elements.length < 8)) (data : U64) (size : BitVec 16)
    (buffer : Buffer) :
    ((request.addInPointer data size).bind fun next =>
      (next.mHipcSendBuffers.add buffer).bind fun mHipcSendBuffers =>
        some { next with mHipcSendBuffers }) = none := by
  by_cases room : request.mHipcSendStatics.elements.length < 8
  · obtain ⟨statics, elements, first⟩ := addInPointer_of_room room data size
    rw [first]
    change (request.mHipcSendBuffers.add _).bind _ = _
    rw [FixedVec.add_of_full fun bufferRoom => full ⟨room, bufferRoom⟩]
    rfl
  · rw [addInPointer_of_full room]
    rfl

/-- A call that needs an element in a full vector aborts. -/
theorem perform_of_not_hasRoom (full : ¬ request.HasRoom call) : request.perform call = none := by
  cases call with
  | addInPointer data size => exact addInPointer_of_full full data _
  | addOutFixedSizePointer data size => exact addOutFixedSizePointer_of_full full data _
  | addOutPointer data size =>
    by_cases room : request.mHipcReceiveStatics.elements.length < 8
    · obtain ⟨statics, elements, first⟩ :=
        addOutFixedSizePointer_of_room room data (size.setWidth 16)
      rw [perform, addOutPointer, first]
      change (request.mHipcOutPointerSizes.add _).bind _ = _
      rw [FixedVec.add_of_full fun outRoom => full ⟨room, outRoom⟩]
      rfl
    · rw [perform, addOutPointer, addOutFixedSizePointer_of_full room]
      rfl
  | addInAutoselect data size mode =>
    rw [perform, addInAutoselect]
    split <;> exact addIn_of_full full _ _ _
  | addOutAutoselect data size mode =>
    by_cases room : request.mHipcReceiveStatics.elements.length < 8 ∧
      request.mHipcReceiveBuffers.elements.length < 8
    · rw [perform, addOutAutoselect]
      split <;> rename_i selects
      · obtain ⟨statics, buffers, -, -, first, second⟩ :=
          addOut_of_room room.1 room.2 (.make data (size.setWidth 16)) (.make mode 0 0)
        have outFull : ¬ request.mHipcOutPointerSizes.elements.length < 8 :=
          fun outRoom => full ⟨room.1, room.2, fun _ => outRoom⟩
        rw [first, second, FixedVec.add_of_full outFull]
        rfl
      · exact absurd ⟨room.1, room.2, fun selected => absurd selected selects⟩ full
    · have fails (receive : ReceiveStatic) (buffer : Buffer)
          (rest : FixedVec ReceiveStatic 8 → FixedVec Buffer 8 → Option Request) :
          ((request.mHipcReceiveStatics.add receive).bind fun statics =>
            (request.mHipcReceiveBuffers.add buffer).bind (rest statics)) = none := by
        by_cases first : request.mHipcReceiveStatics.elements.length < 8
        · have second : ¬ request.mHipcReceiveBuffers.elements.length < 8 :=
            fun second => room ⟨first, second⟩
          rw [FixedVec.add_of_full second]
          exact Option.bind_fun_none _
        · rw [FixedVec.add_of_full first]
          rfl
      rw [perform, addOutAutoselect]
      split
      · exact fails _ _ _
      · exact fails _ _ _

/-- An explicit call that does not abort keeps its promise exactly when it fits. -/
theorem promised_explicit_iff {left : ℕ} (explicit : call.isAutoselect = false)
    (same : request.mServerPointerSize.toNat = left)
    (counts : next.mServerPointerSize = request.mServerPointerSize - call.size.setWidth 16)
    (sizes : call.size.toNat ≤ left → next.sizes = call.adds request.sizes left) :
    Promised request left call next ↔ call.size.toNat ≤ left := by
  subst same
  constructor
  · intro promised
    exact promised.rejects explicit
  · intro fits
    refine ⟨fun _ => fits, fun autoselect => ?_, ?_, sizes fits⟩
    · exact absurd (explicit.symm.trans autoselect) Bool.false_ne_true
    · rw [Call.takes, if_pos fits, counts, sub_setWidth_toNat fits]

/-- What is left decides for a selected call that does not become a pointer. -/
theorem promised_mapped_iff {left : ℕ} (autoselect : call.isAutoselect = true)
    (same : request.mServerPointerSize.toNat = left)
    (mapped : ¬ request.selectsPointer call.size = true)
    (counts : next.mServerPointerSize = request.mServerPointerSize) :
    Promised request left call next ↔
      ¬ call.size.toNat ≤ left ∧ next.sizes = call.adds request.sizes left := by
  constructor
  · intro promised
    exact ⟨fun fits => mapped ((promised.selects autoselect).mpr fits), promised.sizes⟩
  · rintro ⟨large, sizes⟩
    refine ⟨fun explicit => ?_, fun _ => iff_of_false mapped large, ?_, sizes⟩
    · exact absurd (explicit.symm.trans autoselect) Bool.false_ne_true
    · rw [Call.takes, if_neg large, counts, same, Nat.add_zero]

/-- A mapped buffer has its size exactly when that has 36 bits. -/
theorem append_mapped_iff (sizes : List ℕ) (mode : BufferMode) (data size : U64) :
    sizes ++ [(Buffer.make mode data size).size.toNat] = sizes ++ [size.toNat] ↔
      size.toNat < 2 ^ 36 := by
  rw [List.append_cancel_left_eq, List.cons.injEq, Buffer.size_make]
  exact (and_iff_left rfl).trans (Nat.mod_eq_iff_lt (by decide))

theorem correct_iff_careful (inv : (⟨request, total⟩ : Counted).Inv serverSize) (call : Call) :
    Correct serverSize ⟨request, total⟩ call ↔ Careful ⟨request, total⟩ call := by
  have left : request.mServerPointerSize.toNat = serverSize - total := by
    have := inv.left
    change request.mServerPointerSize.toNat + total = serverSize at this
    omega
  by_cases room : request.HasRoom call
  swap
  · refine iff_of_true (fun next performed => ?_) fun hasRoom => absurd hasRoom room
    cases (perform_of_not_hasRoom room).symm.trans performed
  · rw [show Careful ⟨request, total⟩ call ↔ Fits request.mServerPointerSize.toNat call from
      ⟨fun careful => careful room, fun fits _ => fits⟩]
    cases call with
    | addInPointer data size =>
      obtain ⟨statics, elements, performed⟩ := addInPointer_of_room room data (size.setWidth 16)
      have done : request.perform (.addInPointer data size) = some _ := performed
      rw [correct_of_perform done, promised_explicit_iff rfl left rfl, left]
      · rfl
      · intro fits
        have same : (size.setWidth 16).toNat = size.toNat := setWidth_toNat_of_le (left.symm ▸ fits)
        simp only [sizes, elements, List.map_append, List.map_cons, List.map_nil, Static.make,
          Call.adds, same]
    | addOutFixedSizePointer data size =>
      obtain ⟨statics, elements, performed⟩ :=
        addOutFixedSizePointer_of_room room data (size.setWidth 16)
      have done : request.perform (.addOutFixedSizePointer data size) = some _ := performed
      rw [correct_of_perform done, promised_explicit_iff rfl left rfl, left]
      · rfl
      · intro fits
        have same : (size.setWidth 16).toNat = size.toNat := setWidth_toNat_of_le (left.symm ▸ fits)
        simp only [sizes, elements, List.map_append, List.map_cons, List.map_nil,
          ReceiveStatic.make, Call.adds, same]
    | addOutPointer data size =>
      obtain ⟨statics, outs, elements, outElements, performed⟩ :=
        addOutPointer_of_room room.1 room.2 data size
      have done : request.perform (.addOutPointer data size) = some _ := performed
      rw [correct_of_perform done, promised_explicit_iff rfl left rfl, left]
      · rfl
      · intro fits
        have same : (size.setWidth 16).toNat = size.toNat := setWidth_toNat_of_le (left.symm ▸ fits)
        simp only [sizes, elements, outElements, List.map_append, List.map_cons, List.map_nil,
          ReceiveStatic.make, Call.adds, same]
    | addInAutoselect data size mode =>
      have selects := selectsPointer_iff request size
      rw [left] at selects ⊢
      change _ ↔ (if size.toNat ≤ serverSize - total then 0 < serverSize - total else _)
      by_cases selected : request.selectsPointer size = true
      · obtain ⟨statics, buffers, elements, bufferElements, added⟩ :=
          addIn_of_room room.1 room.2 data (size.setWidth 16) (.make mode 0 0)
        have selecting : request.perform (.addInAutoselect data size mode) = _ := if_pos selected
        have done := selecting.trans added
        obtain ⟨positive, fits⟩ := selects.mp selected
        have takes : (Call.addInAutoselect data size mode).takes (serverSize - total) = size.toNat :=
          if_pos fits
        rw [correct_of_perform done, if_pos fits]
        refine iff_of_true ⟨nofun, fun _ => iff_of_true selected fits, ?_, ?_⟩ positive
        · rw [takes, ← left]
          exact sub_setWidth_toNat (left.symm ▸ fits)
        · rw [Call.adds, if_pos fits]
          rw [← left] at fits
          simp only [sizes, elements, bufferElements, List.map_append, List.map_cons, List.map_nil,
            Static.make, setWidth_toNat_of_le fits, Buffer.size_make]
          rfl
      · obtain ⟨statics, buffers, elements, bufferElements, added⟩ :=
          addIn_of_room room.1 room.2 0 0 (.make mode data size)
        have selecting : request.perform (.addInAutoselect data size mode) = _ := if_neg selected
        have done := selecting.trans added
        have counts : request.mServerPointerSize - (0 : U64).setWidth 16 =
            request.mServerPointerSize := BitVec.sub_zero _
        have mapped : ¬ request.selectsPointer (Call.addInAutoselect data size mode).size = true :=
          selected
        rw [correct_of_perform done, promised_mapped_iff rfl left mapped counts]
        by_cases fits : size.toNat ≤ serverSize - total
        · rw [if_pos fits]
          refine iff_of_false (fun both => both.1 fits) fun positive => ?_
          exact selected (selects.mpr ⟨positive, fits⟩)
        · rw [if_neg fits, ← append_mapped_iff request.sizes.sendBuffers mode data size]
          refine (and_iff_right fits).trans ?_
          rw [Call.adds, if_neg fits]
          simp only [sizes, elements, bufferElements, List.map_append, List.map_cons, List.map_nil,
            Static.make, Sizes.mk.injEq, and_true]
          exact and_iff_right rfl
    | addOutAutoselect data size mode =>
      have selects := selectsPointer_iff request size
      rw [left] at selects ⊢
      change _ ↔ (if size.toNat ≤ serverSize - total then 0 < serverSize - total ∧ size = 0 else _)
      by_cases selected : request.selectsPointer size = true
      · obtain ⟨statics, buffers, elements, bufferElements, first, second⟩ :=
          addOut_of_room room.1 room.2.1 (.make data (size.setWidth 16)) (.make mode 0 0)
        obtain ⟨outs, third, outElements⟩ :=
          FixedVec.exists_add (room.2.2 selected) (size.setWidth 16)
        have selecting : request.perform (.addOutAutoselect data size mode) = _ := if_pos selected
        rw [first, second, third] at selecting
        have done : request.perform (.addOutAutoselect data size mode) = some _ := selecting
        obtain ⟨positive, fits⟩ := selects.mp selected
        have takes : (Call.addOutAutoselect data size mode).takes (serverSize - total) = size.toNat :=
          if_pos fits
        rw [correct_of_perform done, if_pos fits]
        constructor
        · intro promised
          have counts := promised.counts
          rw [takes, ← left] at counts
          refine ⟨positive, BitVec.eq_of_toNat_eq ?_⟩
          exact Nat.add_left_cancel (counts.trans (Nat.add_zero _).symm)
        · rintro ⟨-, rfl⟩
          refine ⟨nofun, fun _ => iff_of_true selected fits, ?_, ?_⟩
          · rw [takes, ← left]
            rfl
          · rw [Call.adds, if_pos fits]
            simp only [sizes, elements, bufferElements, outElements, List.map_append, List.map_cons,
              List.map_nil, ReceiveStatic.make, Buffer.size_make]
            rfl
      · obtain ⟨statics, buffers, elements, bufferElements, first, second⟩ :=
          addOut_of_room room.1 room.2.1 .empty (.make mode data size)
        have selecting : request.perform (.addOutAutoselect data size mode) = _ := if_neg selected
        rw [first, second] at selecting
        have done : request.perform (.addOutAutoselect data size mode) = some _ := selecting
        have mapped : ¬ request.selectsPointer (Call.addOutAutoselect data size mode).size = true :=
          selected
        have counts : ({ request with
            mHipcReceiveStatics := statics
            mHipcReceiveBuffers := buffers } : Request).mServerPointerSize =
          request.mServerPointerSize := rfl
        rw [correct_of_perform done, promised_mapped_iff rfl left mapped counts]
        by_cases fits : size.toNat ≤ serverSize - total
        · rw [if_pos fits]
          refine iff_of_false (fun both => both.1 fits) fun both => ?_
          exact selected (selects.mpr ⟨both.1, fits⟩)
        · rw [if_neg fits, ← append_mapped_iff request.sizes.receiveBuffers mode data size]
          refine (and_iff_right fits).trans ?_
          rw [Call.adds, if_neg fits]
          simp only [sizes, elements, bufferElements, List.map_append, List.map_cons, List.map_nil,
            ReceiveStatic.empty, ReceiveStatic.make, Sizes.mk.injEq, and_true, true_and]
          exact and_iff_left rfl

theorem Counted.Inv.step {state target : Counted} (inv : state.Inv serverSize)
    (correct : Correct serverSize state call)
    (stepped : Request.step serverSize state call = some target) : target.Inv serverSize := by
  obtain ⟨next, performed, rfl⟩ := Option.map_eq_some_iff.mp stepped
  have counts := (correct next performed).counts
  have left := inv.left
  constructor
  change next.mServerPointerSize.toNat +
    (state.total + call.takes (serverSize - state.total)) = serverSize
  omega

/-- On a request to any server all calls keep their promise exactly when all of them are careful. -/
theorem runMeets_counted_iff (serverSize : BitVec 16) (calls : List Call) :
    RunMeets (step serverSize.toNat) (Correct serverSize.toNat) (.start serverSize) calls ↔
      RunMeets (step serverSize.toNat) Careful (.start serverSize) calls := by
  have start : (Counted.start serverSize).Inv serverSize.toNat := ⟨Nat.add_zero _⟩
  have preserved (source : Counted) (call : Call) (target : Counted)
      (inv : source.Inv serverSize.toNat) (correct : Correct serverSize.toNat source call)
      (stepped : step serverSize.toNat source call = some target) :
      target.Inv serverSize.toNat := inv.step correct stepped
  exact runMeets_congr preserved (fun _ call inv => correct_iff_careful inv call) start calls

/-- With a pointer buffer of 16 bytes, an input of 32 bytes is added without a check, and an output
of 8 bytes is not counted. -/
theorem not_runMeets_counted :
    ¬ RunMeets (step 16) (Correct 16) (.start 16) [.addInPointer 0x1000 32] ∧
    ¬ RunMeets (step 16) (Correct 16) (.start 16) [.addOutAutoselect 0x1000 8 .Normal] := by
  constructor
  · rintro ⟨correct, -⟩
    have fits := (correct _ rfl).rejects rfl
    revert fits
    decide
  · rintro ⟨correct, -⟩
    have counts := (correct _ rfl).counts
    revert counts
    decide

end Request

end Hakkun.Sf
