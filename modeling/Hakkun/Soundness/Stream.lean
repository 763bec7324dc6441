import Hakkun.Model.Util.Stream
import Mathlib.Data.List.Range

/-! # Bounds and atomicity of streams

A check adds the cursor and a size in 64 bits. A sum that wraps around passes it, and a call that is
made of several reads or writes keeps what the first ones did when a later one fails. Everywhere
else a call stays inside the buffer, fails without a trace, and reads back what was written.
-/

namespace Hakkun.Util.Stream

open Ro

variable {stream : Stream} {call : Call}

/-! ## Correct calls -/

/-- A call accessed bytes from the cursor on that the buffer has, and moved past them. -/
def Advances (stream : Stream) (outcome : Outcome) : Prop :=
  ∃ n : ℕ, stream.mCursor.toNat + n ≤ stream.mSize.toNat ∧
    outcome.stream.mCursor.toNat = stream.mCursor.toNat + n ∧
    ∀ access ∈ outcome.accessed, stream.mCursor.toNat ≤ access.start.toNat ∧
      access.start.toNat + access.size.toNat ≤ stream.mCursor.toNat + n

/-- A stream at the same place in a buffer that has the same bytes from there on. -/
structure Returned (stream : Stream) (written : Stream) (n : ℕ) (later : Stream) : Prop where
  size : later.mSize = stream.mSize
  cursor : later.mCursor = stream.mCursor
  bytes : ∀ i < n, later.taken i = written.buffer (stream.mCursor + BitVec.ofNat 64 i)

/-- Reading what was written: a value, an array of any elements it is made of, or a string. -/
def ReadsBack (stream written : Stream) : Call → Prop
  | .write data dataSize | .tryWrite data dataSize =>
    ∀ later, Returned stream written dataSize.toNat later →
      (∃ bytes, later.tryRead dataSize = ⟨.value dataSize bytes,
        { later with mCursor := written.mCursor }, [⟨stream.mCursor, dataSize⟩]⟩ ∧
        ∀ i < dataSize.toNat, bytes i = data i) ∧
      ∀ elementSize Capacity amount : U64, amount ≤ Capacity →
        amount.toNat * elementSize.toNat = dataSize.toNat →
        ∃ elements accessed, later.readArray elementSize Capacity amount = ⟨.array elements,
          { later with mCursor := written.mCursor }, accessed⟩ ∧ elements.length = amount.toNat ∧
          ∀ i element, elements[i]? = some element → ∀ j < elementSize.toNat,
            element j = data (i * elementSize.toNat + j)
  | .tryWriteString value length =>
    ∀ later, Returned stream written (8 + length.toNat) later → ∀ maxLen, length ≤ maxLen →
      ∃ bytes accessed, later.readString maxLen =
        ⟨.value length bytes, { later with mCursor := written.mCursor }, accessed⟩ ∧
        ∀ i < length.toNat, bytes i = value i
  | _ => True

/-- What a call that does not abort promises. -/
structure Promised (stream : Stream) (call : Call) (outcome : Outcome) : Prop where
  success : outcome.reply ≠ .outOfRange → match call with
    | .seek cursor | .trySeek cursor =>
      outcome.accessed = [] ∧ outcome.stream.mCursor = cursor ∧ cursor ≤ stream.mSize
    | _ => Advances stream outcome
  failure : outcome.reply = .outOfRange → outcome.stream = stream
  readsBack : outcome.reply ≠ .outOfRange → ReadsBack stream outcome.stream call

def Correct (stream : Stream) (call : Call) : Prop :=
  ∀ outcome, stream.perform call = .ok outcome → Promised stream call outcome

/-! ## Careful calls -/

/-- The check of a size. -/
def Passes (stream : Stream) (n : U64) : Prop := stream.mCursor + n ≤ stream.mSize

/-- There are so many bytes left. -/
def Inside (stream : Stream) (n : ℕ) : Prop := stream.mCursor.toNat + n ≤ stream.mSize.toNat

instance (stream : Stream) (n : U64) : Decidable (stream.Passes n) :=
  inferInstanceAs (Decidable (_ ≤ _))

instance (stream : Stream) (n : ℕ) : Decidable (stream.Inside n) :=
  inferInstanceAs (Decidable (_ ≤ _))

/-- No size that passes the check wraps around, and a call with several parts fails at the first of
them if it fails. -/
def Careful (stream : Stream) : Call → Prop
  | .seek _ | .trySeek _ => True
  | .write _ dataSize | .tryWrite _ dataSize =>
    stream.cIsReadOnly = false → stream.Passes dataSize → stream.Inside dataSize.toNat
  | .tryWriteString _ length =>
    stream.cIsReadOnly = false → stream.Passes 8 → stream.Inside (8 + length.toNat)
  | .tryRead dataSize | .read dataSize => stream.Passes dataSize → stream.Inside dataSize.toNat
  | .readArray elementSize Capacity amount =>
    amount ≤ Capacity → 0 < amount.toNat → stream.Passes elementSize →
      stream.Inside (amount.toNat * elementSize.toNat)
  | .readString maxLen =>
    stream.Passes 8 → stream.Inside (8 + (sizeOfBytes stream.taken).toNat) ∧
      sizeOfBytes stream.taken ≤ maxLen

/-- A sized stream whose cursor is in the buffer. -/
structure Inv (stream : Stream) : Prop where
  sized : stream.mSize ≠ -1
  bounded : stream.mCursor.toNat ≤ stream.mSize.toNat

instance decidableCareful (stream : Stream) : ∀ call, Decidable (stream.Careful call)
  | .seek _ | .trySeek _ => inferInstanceAs (Decidable True)
  | .write _ _ | .tryWrite _ _ | .tryWriteString _ _ => inferInstanceAs (Decidable (_ = _ → _ → _))
  | .tryRead _ | .read _ => inferInstanceAs (Decidable (_ → Inside _ _))
  | .readArray _ _ _ => inferInstanceAs (Decidable (_ ≤ _ → _ < _ → _ → Inside _ _))
  | .readString _ => inferInstanceAs (Decidable (_ → Inside _ _ ∧ _ ≤ _))

theorem Inside.passes {n : U64} (inside : stream.Inside n.toNat) : stream.Passes n := by
  have := stream.mSize.isLt
  rw [Inside] at inside
  rw [Passes, BitVec.le_def, BitVec.toNat_add]
  omega

/-- The advance by a size that is there. -/
theorem Inside.toNat_cursor_add {n : U64} (inside : stream.Inside n.toNat) :
    (stream.mCursor + n).toNat = stream.mCursor.toNat + n.toNat := by
  have := stream.mSize.isLt
  rw [Inside] at inside
  rw [BitVec.toNat_add, Nat.mod_eq_of_lt (by omega)]

theorem hasSize_of_sized (sized : stream.mSize ≠ -1) : stream.hasSize = true := by
  simpa [hasSize] using sized

/-! ## Single accesses -/

theorem tryRead_of_passes {n : U64} (passes : stream.Passes n) : stream.tryRead n = stream.take n :=
  if_neg fun both => absurd passes (BitVec.not_le.mpr both.2)

theorem tryRead_of_not_passes (sized : stream.mSize ≠ -1) {n : U64} (fails : ¬ stream.Passes n) :
    stream.tryRead n = ⟨.outOfRange, stream, []⟩ :=
  if_pos ⟨hasSize_of_sized sized, BitVec.not_le.mp fails⟩

theorem tryWrite_of_passes (writable : stream.cIsReadOnly = false) {n : U64}
    (passes : stream.Passes n) (data : ℕ → Byte) : stream.tryWrite data n = .ok (stream.put data n) := by
  rw [tryWrite, checkReadOnly, if_pos writable]
  exact if_neg fun both => absurd passes (BitVec.not_le.mpr both.2)

theorem tryWrite_of_not_passes (sized : stream.mSize ≠ -1) (writable : stream.cIsReadOnly = false)
    {n : U64} (fails : ¬ stream.Passes n) (data : ℕ → Byte) :
    stream.tryWrite data n = .ok ⟨.outOfRange, stream, []⟩ := by
  rw [tryWrite, checkReadOnly, if_pos writable]
  exact if_pos ⟨hasSize_of_sized sized, BitVec.not_le.mp fails⟩

theorem write_of_passes (writable : stream.cIsReadOnly = false) {n : U64} (passes : stream.Passes n)
    (data : ℕ → Byte) : stream.write data n = .ok (stream.put data n) := by
  rw [write, checkReadOnly, if_pos writable]
  exact if_neg fun both => both.2 passes

theorem write_of_not_passes (sized : stream.mSize ≠ -1) (writable : stream.cIsReadOnly = false)
    {n : U64} (fails : ¬ stream.Passes n) (data : ℕ → Byte) :
    stream.write data n = .error "hk::util::Stream::write: out of range (%zu/%zu)" := by
  rw [write, checkReadOnly, if_pos writable]
  exact if_pos ⟨hasSize_of_sized sized, fails⟩

theorem read_of_passes {n : U64} (passes : stream.Passes n) : stream.read n = .ok (stream.take n) :=
  if_neg fun both => both.2 passes

theorem read_of_not_passes (sized : stream.mSize ≠ -1) {n : U64} (fails : ¬ stream.Passes n) :
    stream.read n = .error "hk::util::Stream::write: out of range (%zu/%zu)" :=
  if_pos ⟨hasSize_of_sized sized, fails⟩

theorem seek_of_le {cursor : U64} (inside : cursor ≤ stream.mSize) :
    stream.seek cursor = .ok ⟨.success, { stream with mCursor := cursor }, []⟩ :=
  if_neg fun outside => outside.2 inside

theorem seek_of_not_le (sized : stream.mSize ≠ -1) {cursor : U64} (outside : ¬ cursor ≤ stream.mSize) :
    stream.seek cursor = .error "hk::util::Stream::seek: out of range (%zu/%zu)" :=
  if_pos ⟨hasSize_of_sized sized, outside⟩

theorem trySeek_of_le {cursor : U64} (inside : cursor ≤ stream.mSize) :
    stream.trySeek cursor = ⟨.success, { stream with mCursor := cursor }, []⟩ :=
  if_neg fun outside => outside.2 inside

theorem trySeek_of_not_le (sized : stream.mSize ≠ -1) {cursor : U64}
    (outside : ¬ cursor ≤ stream.mSize) : stream.trySeek cursor = ⟨.outOfRange, stream, []⟩ :=
  if_pos ⟨hasSize_of_sized sized, outside⟩

theorem checkReadOnly_of_readOnly (readOnly : stream.cIsReadOnly = true) :
    stream.checkReadOnly = .error "hk::util::Stream: stream is read only" :=
  if_neg (by simp [readOnly])

/-- One access from the cursor on stays in the buffer exactly if so many bytes are left. -/
theorem advances_iff_inside {outcome : Outcome} {n : U64}
    (cursor : outcome.stream.mCursor = stream.mCursor + n)
    (accessed : outcome.accessed = [⟨stream.mCursor, n⟩]) :
    Advances stream outcome ↔ stream.Inside n.toNat := by
  constructor
  · rintro ⟨total, fits, -, confined⟩
    obtain ⟨-, ends⟩ := confined ⟨stream.mCursor, n⟩ (by rw [accessed]; exact List.mem_singleton_self _)
    exact Nat.le_trans ends fits
  · intro inside
    refine ⟨n.toNat, inside, cursor ▸ inside.toNat_cursor_add, fun access member => ?_⟩
    rw [accessed, List.mem_singleton] at member
    exact member ▸ ⟨le_rfl, le_rfl⟩

/-- What was copied to the cursor is found there. -/
theorem put_buffer (data : ℕ → Byte) (n : U64) {i : ℕ} (inside : i < n.toNat) :
    (stream.put data n).stream.buffer (stream.mCursor + BitVec.ofNat 64 i) = data i := by
  have distance : (stream.mCursor + BitVec.ofNat 64 i - stream.mCursor).toNat = i := by
    have := n.isLt
    rw [BitVec.add_comm, BitVec.add_sub_cancel, BitVec.toNat_ofNat, Nat.mod_eq_of_lt (by omega)]
  rw [put]
  simp only [memcpy, distance, if_pos inside]

/-- What is not in the range of a copy stays. -/
theorem put_buffer_outside (data : ℕ → Byte) (n : U64) {at_ : U64}
    (outside : n.toNat ≤ (at_ - stream.mCursor).toNat) :
    (stream.put data n).stream.buffer at_ = stream.buffer at_ :=
  if_neg (not_lt.mpr outside)

/-! ## Arrays -/

/-- The cursor moved by some bytes. -/
def moved (stream : Stream) (n : ℕ) : Stream :=
  { stream with mCursor := stream.mCursor + BitVec.ofNat 64 n }

theorem moved_moved (stream : Stream) (first second : ℕ) :
    (stream.moved first).moved second = stream.moved (first + second) := by
  simp only [moved, BitVec.add_assoc, ← BitVec.ofNat_add]

theorem taken_moved (stream : Stream) (n i : ℕ) : (stream.moved n).taken i = stream.taken (n + i) := by
  simp only [moved, taken, BitVec.add_assoc, ← BitVec.ofNat_add]

theorem moved_toNat (stream : Stream) (n : U64) :
    stream.moved n.toNat = { stream with mCursor := stream.mCursor + n } := by
  rw [moved, BitVec.ofNat_toNat, BitVec.setWidth_eq]

theorem Inside.moved {first second : ℕ} (inside : stream.Inside (first + second)) :
    (stream.moved first).Inside second ∧
      (stream.moved first).mCursor.toNat = stream.mCursor.toNat + first := by
  have := stream.mSize.isLt
  rw [Inside] at inside
  have cursor : (stream.moved first).mCursor.toNat = stream.mCursor.toNat + first := by
    rw [Stream.moved, BitVec.toNat_add, BitVec.toNat_ofNat]
    omega
  refine ⟨?_, cursor⟩
  rw [Inside, cursor]
  change _ ≤ stream.mSize.toNat
  omega

theorem readArrayLoop_succ (elementSize : U64) (left : ℕ) (arr : List (ℕ → Byte))
    (accessed : List Access) (passes : stream.Passes elementSize) :
    readArrayLoop elementSize (left + 1) stream arr accessed =
      readArrayLoop elementSize left (stream.moved elementSize.toNat) (arr ++ [stream.taken])
        (accessed ++ [⟨stream.mCursor, elementSize⟩]) := by
  rw [readArrayLoop, tryRead_of_passes passes, moved_toNat]
  rfl

/-- The elements that are there are read one after the other. -/
theorem readArrayLoop_of_inside (elementSize : U64) (left : ℕ) (arr : List (ℕ → Byte))
    (accessed : List Access) (inside : stream.Inside (left * elementSize.toNat)) :
    ∃ elements more, readArrayLoop elementSize left stream arr accessed = ⟨.array (arr ++ elements),
        stream.moved (left * elementSize.toNat), accessed ++ more⟩ ∧
      elements.length = left ∧
      (∀ i element, elements[i]? = some element → ∀ j < elementSize.toNat,
        element j = stream.taken (i * elementSize.toNat + j)) ∧
      ∀ access ∈ more, stream.mCursor.toNat ≤ access.start.toNat ∧ access.start.toNat +
        access.size.toNat ≤ stream.mCursor.toNat + left * elementSize.toNat := by
  induction left generalizing stream arr accessed with
  | zero =>
    refine ⟨[], [], ?_, rfl, by simp, by simp⟩
    simp [readArrayLoop, Stream.moved]
  | succ left ih =>
    rw [Nat.succ_mul, Nat.add_comm] at inside
    obtain ⟨later, cursor⟩ := inside.moved
    have first : stream.Inside elementSize.toNat := by
      rw [Inside] at inside ⊢
      omega
    rw [readArrayLoop_succ _ _ _ _ first.passes]
    obtain ⟨elements, more, run, length, values, confined⟩ := ih (arr ++ [stream.taken])
      (accessed ++ [⟨stream.mCursor, elementSize⟩]) later
    refine ⟨stream.taken :: elements, ⟨stream.mCursor, elementSize⟩ :: more, ?_, by simp [length],
      ?_, ?_⟩
    · rw [run, moved_moved, List.append_assoc, List.append_assoc, Nat.succ_mul, Nat.add_comm]
      rfl
    · rintro (_ | i) element found j small
      · obtain rfl := Option.some.inj found
        rw [Nat.zero_mul, Nat.zero_add]
      · rw [values i element found j small, taken_moved]
        congr 1
        ring
    · rintro access (_ | ⟨_, member⟩)
      · dsimp only
        exact ⟨le_rfl, by rw [Nat.succ_mul]; omega⟩
      · have := confined access member
        rw [cursor] at this
        rw [Nat.succ_mul]
        omega

/-- A loop that ends with an error ends where an element does not fit, and one that ends with the
array has accessed something outside unless all of it is there. -/
theorem readArrayLoop_outcome (sized : stream.mSize ≠ -1) (elementSize : U64) (left : ℕ)
    (arr : List (ℕ → Byte)) (accessed : List Access)
    (bounded : stream.mCursor.toNat ≤ stream.mSize.toNat) :
    let outcome := readArrayLoop elementSize left stream arr accessed
    accessed ⊆ outcome.accessed ∧
    (outcome.reply = .outOfRange → ¬ outcome.stream.Passes elementSize) ∧
    (outcome.reply ≠ .outOfRange → stream.Inside (left * elementSize.toNat) ∨
      ∃ access ∈ outcome.accessed, stream.mSize.toNat < access.start.toNat + access.size.toNat) := by
  induction left generalizing stream arr accessed with
  | zero =>
    refine ⟨List.Subset.refl _, nofun, fun _ => .inl ?_⟩
    rw [Inside]
    omega
  | succ left ih =>
    by_cases passes : stream.Passes elementSize
    · rw [readArrayLoop_succ _ _ _ _ passes]
      have bounded' : (stream.moved elementSize.toNat).mCursor.toNat ≤
          (stream.moved elementSize.toNat).mSize.toNat := by
        rw [moved_toNat]
        exact BitVec.le_def.mp passes
      have sized' : (stream.moved elementSize.toNat).mSize ≠ -1 := sized
      obtain ⟨kept, failed, succeeded⟩ := ih sized' (arr ++ [stream.taken])
        (accessed ++ [⟨stream.mCursor, elementSize⟩]) bounded'
      have here := kept (List.mem_append_right _ (List.mem_singleton_self _))
      refine ⟨fun access member => kept (List.mem_append_left _ member), failed, fun done => ?_⟩
      by_cases inside : stream.Inside elementSize.toNat
      · rcases succeeded done with rest | outside
        · refine .inl ?_
          have cursor : (stream.moved elementSize.toNat).mCursor.toNat =
              stream.mCursor.toNat + elementSize.toNat := by
            rw [moved_toNat]
            exact inside.toNat_cursor_add
          rw [Inside, cursor] at rest
          change _ ≤ stream.mSize.toNat at rest
          rw [Inside, Nat.succ_mul]
          omega
        · exact .inr outside
      · exact .inr ⟨_, here, not_le.mp inside⟩
    · rw [readArrayLoop, tryRead_of_not_passes sized passes]
      exact ⟨List.Subset.refl _, fun _ => passes, fun absurd => (absurd rfl).elim⟩

/-! ## Writing and reading back -/

theorem sizeOfBytes_congr {first second : ℕ → Byte} (same : ∀ i < 8, first i = second i) :
    sizeOfBytes first = sizeOfBytes second := by
  simp only [sizeOfBytes, List.range, List.range.loop, List.foldr_cons, List.foldr_nil,
    same _ (show 0 < 8 by decide), same _ (show 1 < 8 by decide), same _ (show 2 < 8 by decide),
    same _ (show 3 < 8 by decide), same _ (show 4 < 8 by decide), same _ (show 5 < 8 by decide),
    same _ (show 6 < 8 by decide), same _ (show 7 < 8 by decide)]

theorem sizeOfBytes_sizeBytes (value : U64) : sizeOfBytes (sizeBytes value) = value := by
  have := value.isLt
  apply BitVec.eq_of_toNat_eq
  simp only [sizeOfBytes, sizeBytes, List.range, List.range.loop, List.foldr_cons, List.foldr_nil,
    BitVec.toNat_ofNat]
  omega

theorem Returned.inside {written later : Stream} {n m : ℕ} (returned : Returned stream written n later)
    (inside : stream.Inside m) : later.Inside m := by
  rw [Inside, returned.cursor, returned.size]
  exact inside

theorem readsBack_put {n : U64} (inside : stream.Inside n.toNat) (data : ℕ → Byte) :
    ReadsBack stream (stream.put data n).stream (.write data n) := by
  intro later returned
  have taken (i : ℕ) (small : i < n.toNat) : later.taken i = data i :=
    (returned.bytes i small).trans (put_buffer data n small)
  constructor
  · refine ⟨later.taken, ?_, taken⟩
    rw [tryRead_of_passes (returned.inside inside).passes, take, returned.cursor]
    rfl
  · intro elementSize Capacity amount fits total
    obtain ⟨elements, more, run, length, values, -⟩ := readArrayLoop_of_inside elementSize
      amount.toNat [] [] (returned.inside (total ▸ inside))
    refine ⟨elements, more, ?_, length, fun i element found j small => ?_⟩
    · rw [readArray, if_neg (not_not.mpr fits), run, total, moved_toNat, returned.cursor]
      rfl
    · rw [values i element found j small]
      apply taken
      have index : i < amount.toNat := length ▸ (List.getElem?_eq_some_iff.mp found).1
      calc i * elementSize.toNat + j < (i + 1) * elementSize.toNat := by rw [Nat.succ_mul]; omega
        _ ≤ amount.toNat * elementSize.toNat := Nat.mul_le_mul_right _ index
        _ = n.toNat := total

/-! ## Calls of one access -/

/-- A call that is one access, where the check decides whether it is made. -/
theorem correct_iff_of_access (call : Call) (done : Outcome) {n : U64}
    (moves : match call with | .seek _ | .trySeek _ => False | _ => True)
    (success : done.reply ≠ .outOfRange) (cursor : done.stream.mCursor = stream.mCursor + n)
    (accessed : done.accessed = [⟨stream.mCursor, n⟩])
    (passing : stream.Passes n → stream.perform call = .ok done)
    (failing : ¬ stream.Passes n → (∃ message, stream.perform call = .error message) ∨
      stream.perform call = .ok ⟨.outOfRange, stream, []⟩)
    (readsBack : stream.Inside n.toNat → ReadsBack stream done.stream call) :
    stream.Correct call ↔ (stream.Passes n → stream.Inside n.toNat) := by
  constructor
  · intro correct passes
    have promised := (correct done (passing passes)).success success
    rw [← advances_iff_inside cursor accessed]
    cases call <;> first | exact promised | exact moves.elim
  · intro careful outcome performed
    by_cases passes : stream.Passes n
    · obtain rfl : done = outcome := Except.ok.inj ((passing passes).symm.trans performed)
      have inside := careful passes
      have advances := (advances_iff_inside cursor accessed).mpr inside
      refine ⟨fun _ => ?_, fun failed => (success failed).elim, fun _ => readsBack inside⟩
      cases call <;> first | exact advances | exact moves.elim
    · rcases failing passes with ⟨message, aborted⟩ | failed
      · rw [aborted] at performed
        cases performed
      · obtain rfl := Except.ok.inj (failed.symm.trans performed)
        exact ⟨fun absurd => (absurd rfl).elim, fun _ => rfl, fun absurd => (absurd rfl).elim⟩

/-! ## Strings -/

/-- The cursor after two parts of a string that end in the buffer. -/
theorem inside_string {length : U64} (inside : stream.Inside (8 + length.toNat)) :
    (stream.mCursor + 8).toNat = stream.mCursor.toNat + 8 ∧
      (stream.mCursor + 8 + length).toNat = stream.mCursor.toNat + (8 + length.toNat) := by
  have := stream.mSize.isLt
  rw [Inside] at inside
  have first : (stream.mCursor + 8).toNat = stream.mCursor.toNat + 8 := by
    rw [BitVec.toNat_add, show (8 : U64).toNat = 8 from rfl]
    omega
  refine ⟨first, ?_⟩
  rw [BitVec.toNat_add, first]
  omega

/-- Two accesses one after the other stay in the buffer exactly if both are there. -/
theorem advances_string_iff {outcome : Outcome} {length : U64}
    (cursor : outcome.stream.mCursor = stream.mCursor + 8 + length)
    (accessed : outcome.accessed = [⟨stream.mCursor, 8⟩, ⟨stream.mCursor + 8, length⟩]) :
    Advances stream outcome ↔ stream.Inside (8 + length.toNat) := by
  constructor
  · rintro ⟨total, fits, -, confined⟩
    rw [accessed] at confined
    have first : stream.mCursor.toNat + 8 ≤ stream.mCursor.toNat + total :=
      (confined ⟨stream.mCursor, 8⟩ (by simp)).2
    have second : (stream.mCursor + 8).toNat + length.toNat ≤ stream.mCursor.toNat + total :=
      (confined ⟨stream.mCursor + 8, length⟩ (by simp)).2
    have := stream.mSize.isLt
    rw [BitVec.toNat_add, show (8 : U64).toNat = 8 from rfl, Nat.mod_eq_of_lt (by omega)] at second
    rw [Inside]
    omega
  · intro inside
    obtain ⟨first, second⟩ := inside_string inside
    refine ⟨8 + length.toNat, inside, cursor ▸ second, fun access member => ?_⟩
    rw [accessed, List.mem_cons, List.mem_singleton] at member
    rcases member with rfl | rfl
    · change stream.mCursor.toNat ≤ stream.mCursor.toNat ∧ stream.mCursor.toNat + 8 ≤ _
      omega
    · dsimp only
      omega

theorem tryWriteString_of_passes (writable : stream.cIsReadOnly = false) (passes : stream.Passes 8)
    (value : ℕ → Byte) (length : U64) :
    let prefixed := (stream.put (sizeBytes length) 8).stream
    (prefixed.Passes length → stream.tryWriteString value length = .ok ⟨.success,
      (prefixed.put value length).stream, [⟨stream.mCursor, 8⟩, ⟨stream.mCursor + 8, length⟩]⟩) ∧
    (stream.mSize ≠ -1 → ¬ prefixed.Passes length → stream.tryWriteString value length =
      .ok ⟨.outOfRange, prefixed, [⟨stream.mCursor, 8⟩]⟩) := by
  intro prefixed
  have writable' : prefixed.cIsReadOnly = false := writable
  rw [tryWriteString, tryWrite_of_passes writable passes]
  constructor
  · intro fits
    change (prefixed.tryWrite value length >>= _) = _
    rw [tryWrite_of_passes writable' fits]
    rfl
  · intro sized fails
    have sized' : prefixed.mSize ≠ -1 := sized
    change (prefixed.tryWrite value length >>= _) = _
    rw [tryWrite_of_not_passes sized' writable' fails]
    rfl

theorem readString_of_passes (passes : stream.Passes 8) (maxLen : U64) :
    let length := sizeOfBytes stream.taken
    let prefixed := stream.moved 8
    (¬ length ≤ maxLen → stream.readString maxLen = ⟨.outOfRange, prefixed, [⟨stream.mCursor, 8⟩]⟩) ∧
    (length ≤ maxLen → prefixed.Passes length → stream.readString maxLen =
      ⟨.value length prefixed.taken, { prefixed with mCursor := stream.mCursor + 8 + length },
        [⟨stream.mCursor, 8⟩, ⟨stream.mCursor + 8, length⟩]⟩) ∧
    (stream.mSize ≠ -1 → length ≤ maxLen → ¬ prefixed.Passes length →
      stream.readString maxLen = ⟨.outOfRange, prefixed, [⟨stream.mCursor, 8⟩]⟩) := by
  intro length prefixed
  rw [readString, tryRead_of_passes passes]
  refine ⟨fun long => if_pos long, fun short fits => ?_, fun sized short fails => ?_⟩
  · refine (if_neg (not_not.mpr short)).trans ?_
    change (let second := prefixed.tryRead length
      ({ second with accessed := [⟨stream.mCursor, 8⟩] ++ second.accessed } : Outcome)) = _
    rw [tryRead_of_passes fits]
    rfl
  · refine (if_neg (not_not.mpr short)).trans ?_
    have sized' : prefixed.mSize ≠ -1 := sized
    change (let second := prefixed.tryRead length
      ({ second with accessed := [⟨stream.mCursor, 8⟩] ++ second.accessed } : Outcome)) = _
    rw [tryRead_of_not_passes sized' fails]
    rfl

theorem readsBack_string {length : U64} (inside : stream.Inside (8 + length.toNat))
    (value : ℕ → Byte) :
    ReadsBack stream ((stream.put (sizeBytes length) 8).stream.put value length).stream
      (.tryWriteString value length) := by
  intro later returned maxLen short
  have room := stream.mSize.isLt
  have first : stream.Inside 8 := by rw [Inside] at inside ⊢; omega
  have prefix_ : ∀ i < 8, later.taken i = sizeBytes length i := by
    intro i small
    rw [returned.bytes i (by omega), put_buffer_outside, put_buffer _ _ small]
    change _ ≤ (_ - (stream.mCursor + 8)).toNat
    rw [Inside] at inside
    simp only [BitVec.toNat_sub, BitVec.toNat_add, BitVec.toNat_ofNat,
      show (8 : U64).toNat = 8 from rfl]
    omega
  have content : ∀ i < length.toNat, later.taken (8 + i) = value i := by
    intro i small
    rw [returned.bytes (8 + i) (by omega), BitVec.ofNat_add, ← BitVec.add_assoc]
    exact put_buffer _ _ small
  have stored : sizeOfBytes later.taken = length :=
    (sizeOfBytes_congr prefix_).trans (sizeOfBytes_sizeBytes length)
  have passes : later.Passes 8 := (returned.inside first).passes
  obtain ⟨fits, -⟩ := (returned.inside inside).moved
  have done := (readString_of_passes passes maxLen).2.1
  rw [stored] at done
  refine ⟨(later.moved 8).taken, [⟨later.mCursor, 8⟩, ⟨later.mCursor + 8, length⟩], ?_, ?_⟩
  · rw [done short fits.passes, returned.cursor]
    rfl
  · intro i small
    rw [taken_moved, content i small]

/-! ## Each kind of call -/

theorem correct_tryWriteString_iff (inv : stream.Inv) (writable : stream.cIsReadOnly = false)
    (value : ℕ → Byte) (length : U64) : stream.Correct (.tryWriteString value length) ↔
      (stream.Passes 8 → stream.Inside (8 + length.toNat)) := by
  constructor
  · intro correct passes
    obtain ⟨written, failed⟩ := tryWriteString_of_passes writable passes value length
    by_cases fits : (stream.put (sizeBytes length) 8).stream.Passes length
    · have advances := (correct _ (written fits)).success nofun
      exact (advances_string_iff rfl rfl).mp advances
    · -- the length was written before the failure
      have unchanged := (correct _ (failed inv.sized fits)).failure rfl
      have cursor : stream.mCursor + 8 = stream.mCursor := congrArg mCursor unchanged
      exact absurd cursor (by
        rw [← BitVec.toNat_inj, BitVec.toNat_add, show (8 : U64).toNat = 8 from rfl]
        have := stream.mCursor.isLt
        omega)
  · intro careful outcome performed
    by_cases passes : stream.Passes 8
    · have inside := careful passes
      obtain ⟨first, -⟩ := inside_string inside
      have fits : (stream.put (sizeBytes length) 8).stream.Passes length := by
        apply Inside.passes
        change (stream.mCursor + 8).toNat + _ ≤ stream.mSize.toNat
        rw [Inside] at inside
        omega
      have written := (tryWriteString_of_passes writable passes value length).1 fits
      obtain rfl := Except.ok.inj (written.symm.trans performed)
      refine ⟨fun _ => (advances_string_iff rfl rfl).mpr inside, nofun, fun _ => ?_⟩
      exact readsBack_string inside value
    · have failed : stream.perform (.tryWriteString value length) =
          .ok ⟨.outOfRange, stream, []⟩ := by
        change stream.tryWriteString value length = _
        rw [tryWriteString, tryWrite_of_not_passes inv.sized writable passes]
        rfl
      obtain rfl := Except.ok.inj (failed.symm.trans performed)
      exact ⟨fun absurd => (absurd rfl).elim, fun _ => rfl, fun absurd => (absurd rfl).elim⟩

theorem correct_readString_iff (inv : stream.Inv) (maxLen : U64) :
    stream.Correct (.readString maxLen) ↔ (stream.Passes 8 →
      stream.Inside (8 + (sizeOfBytes stream.taken).toNat) ∧ sizeOfBytes stream.taken ≤ maxLen) := by
  have moved : stream.moved 8 ≠ stream := by
    intro same
    have cursor : stream.mCursor + 8 = stream.mCursor := congrArg mCursor same
    have := stream.mCursor.isLt
    rw [← BitVec.toNat_inj, BitVec.toNat_add, show (8 : U64).toNat = 8 from rfl] at cursor
    omega
  constructor
  · intro correct passes
    obtain ⟨long, done, failed⟩ := readString_of_passes passes maxLen
    by_cases short : sizeOfBytes stream.taken ≤ maxLen
    · by_cases fits : (stream.moved 8).Passes (sizeOfBytes stream.taken)
      · have advances := (correct _ (congrArg Except.ok (done short fits))).success nofun
        exact ⟨(advances_string_iff rfl rfl).mp advances, short⟩
      · exact (moved ((correct _ (congrArg Except.ok (failed inv.sized short fits))).failure rfl)).elim
    · exact (moved ((correct _ (congrArg Except.ok (long short))).failure rfl)).elim
  · intro careful outcome performed
    by_cases passes : stream.Passes 8
    · obtain ⟨inside, short⟩ := careful passes
      obtain ⟨fits, -⟩ := inside.moved
      have done := (readString_of_passes passes maxLen).2.1 short fits.passes
      obtain rfl := Except.ok.inj ((congrArg Except.ok done).symm.trans performed)
      exact ⟨fun _ => (advances_string_iff rfl rfl).mpr inside, nofun, fun _ => trivial⟩
    · have failed : stream.readString maxLen = ⟨.outOfRange, stream, []⟩ := by
        rw [readString, tryRead_of_not_passes inv.sized passes]
      obtain rfl := Except.ok.inj ((congrArg Except.ok failed).symm.trans performed)
      exact ⟨fun absurd => (absurd rfl).elim, fun _ => rfl, fun absurd => (absurd rfl).elim⟩

theorem correct_readArray_iff (inv : stream.Inv) (elementSize Capacity amount : U64) :
    stream.Correct (.readArray elementSize Capacity amount) ↔ (amount ≤ Capacity →
      0 < amount.toNat → stream.Passes elementSize →
        stream.Inside (amount.toNat * elementSize.toNat)) := by
  have loop (few : amount ≤ Capacity) : stream.readArray elementSize Capacity amount =
      readArrayLoop elementSize amount.toNat stream [] [] := if_neg (not_not.mpr few)
  constructor
  · intro correct few some_ passes
    obtain ⟨-, failed, succeeded⟩ :=
      readArrayLoop_outcome inv.sized elementSize amount.toNat [] [] inv.bounded
    have promised := correct _ (congrArg Except.ok (loop few))
    by_cases error : (readArrayLoop elementSize amount.toNat stream [] []).reply = .outOfRange
    · exact (failed error ((promised.failure error).symm ▸ passes)).elim
    · rcases succeeded error with inside | ⟨access, member, outside⟩
      · exact inside
      · obtain ⟨total, fits, -, confined⟩ := promised.success error
        have := (confined access member).2
        omega
  · intro careful outcome performed
    by_cases few : amount ≤ Capacity
    · have performed : .ok (readArrayLoop elementSize amount.toNat stream [] []) = Except.ok outcome :=
        (congrArg Except.ok (loop few)).symm.trans performed
      obtain rfl := Except.ok.inj performed
      have success (inside : stream.Inside (amount.toNat * elementSize.toNat)) :
          Promised stream (.readArray elementSize Capacity amount)
            (readArrayLoop elementSize amount.toNat stream [] []) := by
        obtain ⟨elements, more, run, -, -, confined⟩ :=
          readArrayLoop_of_inside elementSize amount.toNat [] [] inside
        obtain ⟨-, cursor⟩ := Inside.moved (show stream.Inside (_ + 0) from inside)
        rw [run]
        exact ⟨fun _ => ⟨_, inside, cursor, confined⟩, nofun, fun _ => trivial⟩
      rcases Nat.eq_zero_or_pos amount.toNat with none | some_
      · exact success (by rw [Inside, none]; have := inv.bounded; omega)
      · by_cases passes : stream.Passes elementSize
        · exact success (careful few some_ passes)
        · obtain ⟨left, count⟩ := Nat.exists_eq_succ_of_ne_zero (Nat.ne_of_gt some_)
          rw [count, readArrayLoop, tryRead_of_not_passes inv.sized passes]
          exact ⟨fun absurd => (absurd rfl).elim, fun _ => rfl, fun absurd => (absurd rfl).elim⟩
    · have failed : stream.readArray elementSize Capacity amount = ⟨.outOfRange, stream, []⟩ :=
        if_pos few
      obtain rfl := Except.ok.inj ((congrArg Except.ok failed).symm.trans performed)
      exact ⟨fun absurd => (absurd rfl).elim, fun _ => rfl, fun absurd => (absurd rfl).elim⟩

theorem correct_of_error (message : String) (aborted : stream.perform call = .error message) :
    stream.Correct call := fun outcome performed => by
  rw [aborted] at performed
  cases performed

/-- A stream that is read only aborts all writes. -/
theorem correct_of_readOnly (readOnly : stream.cIsReadOnly = true) (call : Call)
    (writes : match call with
      | .write _ _ | .tryWrite _ _ | .tryWriteString _ _ => True
      | _ => False) : stream.Correct call := by
  apply correct_of_error "hk::util::Stream: stream is read only"
  cases call with
  | write | tryWrite =>
    simp only [perform, write, tryWrite, checkReadOnly_of_readOnly readOnly]
    rfl
  | tryWriteString =>
    simp only [perform, tryWriteString, tryWrite, checkReadOnly_of_readOnly readOnly]
    rfl
  | _ => exact writes.elim

/-- A call is correct exactly when it is careful. -/
theorem correct_iff_careful (inv : stream.Inv) (call : Call) :
    stream.Correct call ↔ stream.Careful call := by
  cases call with
  | seek cursor =>
    refine iff_of_true (fun outcome performed => ?_) trivial
    by_cases inside : cursor ≤ stream.mSize
    · obtain rfl := Except.ok.inj ((seek_of_le inside).symm.trans performed)
      exact ⟨fun _ => ⟨rfl, rfl, inside⟩, nofun, fun _ => trivial⟩
    · cases (seek_of_not_le inv.sized inside).symm.trans performed
  | trySeek cursor =>
    refine iff_of_true (fun outcome performed => ?_) trivial
    obtain rfl := Except.ok.inj performed
    by_cases inside : cursor ≤ stream.mSize
    · rw [trySeek_of_le inside]
      exact ⟨fun _ => ⟨rfl, rfl, inside⟩, nofun, fun _ => trivial⟩
    · rw [trySeek_of_not_le inv.sized inside]
      exact ⟨fun absurd => (absurd rfl).elim, fun _ => rfl, fun absurd => (absurd rfl).elim⟩
  | write data n =>
    cases access : stream.cIsReadOnly with
    | true =>
      refine iff_of_true (correct_of_readOnly access _ trivial) ?_
      exact fun writable => absurd (access.symm.trans writable) (by decide)
    | false =>
      refine (correct_iff_of_access (.write data n) (stream.put data n) trivial nofun rfl rfl
        (fun passes => ?_) (fun fails => .inl ?_) fun inside => readsBack_put inside data).trans
        ⟨fun careful _ => careful, fun careful => careful access⟩
      · exact write_of_passes access passes data
      · exact ⟨_, write_of_not_passes inv.sized access fails data⟩
  | tryWrite data n =>
    cases access : stream.cIsReadOnly with
    | true =>
      refine iff_of_true (correct_of_readOnly access _ trivial) ?_
      exact fun writable => absurd (access.symm.trans writable) (by decide)
    | false =>
      refine (correct_iff_of_access (.tryWrite data n) (stream.put data n) trivial nofun rfl rfl
        (fun passes => ?_) (fun fails => .inr ?_) fun inside => readsBack_put inside data).trans
        ⟨fun careful _ => careful, fun careful => careful access⟩
      · exact tryWrite_of_passes access passes data
      · exact tryWrite_of_not_passes inv.sized access fails data
  | tryWriteString value length =>
    cases access : stream.cIsReadOnly with
    | true =>
      refine iff_of_true (correct_of_readOnly access _ trivial) ?_
      exact fun writable => absurd (access.symm.trans writable) (by decide)
    | false =>
      exact (correct_tryWriteString_iff inv access value length).trans
        ⟨fun careful _ => careful, fun careful => careful access⟩
  | tryRead n =>
    refine correct_iff_of_access (.tryRead n) (stream.take n) trivial nofun rfl rfl
      (fun passes => ?_) (fun fails => .inr ?_) fun _ => trivial
    · exact congrArg Except.ok (tryRead_of_passes passes)
    · exact congrArg Except.ok (tryRead_of_not_passes inv.sized fails)
  | read n =>
    refine correct_iff_of_access (.read n) (stream.take n) trivial nofun rfl rfl
      (fun passes => ?_) (fun fails => .inl ?_) fun _ => trivial
    · exact read_of_passes passes
    · exact ⟨_, read_of_not_passes inv.sized fails⟩
  | readArray elementSize Capacity amount => exact correct_readArray_iff inv elementSize Capacity amount
  | readString maxLen => exact correct_readString_iff inv maxLen

/-! ## Runs -/

theorem Inv.put (inv : stream.Inv) {n : U64} (passes : stream.Passes n) (data : ℕ → Byte) :
    (stream.put data n).stream.Inv := ⟨inv.sized, BitVec.le_def.mp passes⟩

theorem Inv.tryRead (inv : stream.Inv) (n : U64) : (stream.tryRead n).stream.Inv := by
  by_cases passes : stream.Passes n
  · rw [tryRead_of_passes passes]
    exact ⟨inv.sized, BitVec.le_def.mp passes⟩
  · rw [tryRead_of_not_passes inv.sized passes]
    exact inv

theorem Inv.tryWrite (inv : stream.Inv) {data : ℕ → Byte} {n : U64} {outcome : Outcome}
    (written : stream.tryWrite data n = .ok outcome) : outcome.stream.Inv := by
  cases access : stream.cIsReadOnly with
  | true =>
    rw [Stream.tryWrite, checkReadOnly_of_readOnly access] at written
    cases written
  | false =>
    by_cases passes : stream.Passes n
    · rw [tryWrite_of_passes access passes] at written
      obtain rfl := Except.ok.inj written
      exact inv.put passes data
    · rw [tryWrite_of_not_passes inv.sized access passes] at written
      obtain rfl := Except.ok.inj written
      exact inv

theorem Inv.readArrayLoop (inv : stream.Inv) (elementSize : U64) (left : ℕ) (arr : List (ℕ → Byte))
    (accessed : List Access) :
    (readArrayLoop elementSize left stream arr accessed).stream.Inv := by
  induction left generalizing stream arr accessed with
  | zero => exact inv
  | succ left ih =>
    have next := inv.tryRead elementSize
    rw [Stream.readArrayLoop]
    split
    · exact ih next _ _
    · exact next

/-- The cursor stays in the buffer. -/
theorem Inv.step (inv : stream.Inv) {next : Stream} (stepped : stream.step call = some next) :
    next.Inv := by
  cases performed : stream.perform call with
  | error message =>
    rw [Stream.step, performed] at stepped
    cases stepped
  | ok outcome =>
    rw [Stream.step, performed] at stepped
    obtain rfl := Option.some.inj stepped
    cases call with
    | seek cursor =>
      by_cases inside : cursor ≤ stream.mSize
      · obtain rfl := Except.ok.inj ((seek_of_le inside).symm.trans performed)
        exact ⟨inv.sized, BitVec.le_def.mp inside⟩
      · cases (seek_of_not_le inv.sized inside).symm.trans performed
    | trySeek cursor =>
      obtain rfl := Except.ok.inj performed
      by_cases inside : cursor ≤ stream.mSize
      · rw [trySeek_of_le inside]
        exact ⟨inv.sized, BitVec.le_def.mp inside⟩
      · rw [trySeek_of_not_le inv.sized inside]
        exact inv
    | write data n =>
      cases access : stream.cIsReadOnly with
      | true =>
        change stream.write data n = _ at performed
        rw [write, checkReadOnly_of_readOnly access] at performed
        cases performed
      | false =>
        by_cases passes : stream.Passes n
        · obtain rfl := Except.ok.inj ((write_of_passes access passes data).symm.trans performed)
          exact inv.put passes data
        · cases (write_of_not_passes inv.sized access passes data).symm.trans performed
    | tryWrite data n => exact inv.tryWrite performed
    | tryWriteString value length =>
      change stream.tryWriteString value length = _ at performed
      rw [tryWriteString] at performed
      cases first : stream.tryWrite (sizeBytes length) 8 with
      | error message =>
        rw [first] at performed
        cases performed
      | ok part =>
        have kept := inv.tryWrite first
        rw [first] at performed
        simp only [bind, Except.bind] at performed
        split at performed
        · cases second : part.stream.tryWrite value length with
          | error message =>
            rw [second] at performed
            cases performed
          | ok rest =>
            rw [second] at performed
            obtain rfl := Except.ok.inj performed
            have later := kept.tryWrite second
            exact later
        · obtain rfl := Except.ok.inj performed
          exact kept
    | tryRead n =>
      obtain rfl := Except.ok.inj performed
      exact inv.tryRead n
    | read n =>
      by_cases passes : stream.Passes n
      · obtain rfl := Except.ok.inj ((read_of_passes passes).symm.trans performed)
        exact ⟨inv.sized, BitVec.le_def.mp passes⟩
      · cases (read_of_not_passes inv.sized passes).symm.trans performed
    | readArray elementSize Capacity amount =>
      obtain rfl := Except.ok.inj performed
      by_cases few : amount ≤ Capacity
      · rw [show stream.readArray elementSize Capacity amount = _ from if_neg (not_not.mpr few)]
        exact inv.readArrayLoop elementSize amount.toNat [] []
      · rw [show stream.readArray elementSize Capacity amount = _ from if_pos few]
        exact inv
    | readString maxLen =>
      obtain rfl := Except.ok.inj performed
      have first := inv.tryRead 8
      rw [readString]
      dsimp only
      split
      · split_ifs
        · exact first.tryRead _
        · exact first
      · exact first

/-- Along a run on a sized stream all calls are correct exactly when all of them are careful. -/
theorem runMeets_correct_iff_careful (sized : stream.mSize ≠ -1) (start : stream.mCursor = 0)
    (calls : List Call) :
    Machine.RunMeets step Correct stream calls ↔ Machine.RunMeets step Careful stream calls := by
  have inv : stream.Inv := ⟨sized, by rw [start]; exact Nat.zero_le _⟩
  have preserved (source : Stream) (call : Call) (target : Stream) (inv : source.Inv)
      (_ : source.Correct call) (stepped : source.step call = some target) : target.Inv :=
    inv.step stepped
  exact Machine.runMeets_congr preserved (fun _ call inv => correct_iff_careful inv call) inv calls

/-- A buffer of 8 bytes. -/
def eightBytes : Stream := { mSize := 8, buffer := fun _ => 0 }

/-- A string whose length fits and whose content does not is left half written, and a size that wraps
around is written past the end. -/
theorem not_runMeets_eightBytes :
    ¬ Machine.RunMeets step Correct eightBytes [.tryWriteString (fun _ => 0x61) 1] ∧
    ¬ Machine.RunMeets step Correct eightBytes [.seek 1, .tryWrite (fun _ => 0x61) (-1)] := by
  constructor
  · rintro ⟨correct, -⟩
    have passes : eightBytes.Passes 8 := by decide
    have fails : ¬ ((eightBytes.put (sizeBytes 1) 8).stream).Passes 1 := by
      change ¬ (0 + 8 + 1 : U64) ≤ 8
      decide
    have failed := (tryWriteString_of_passes rfl passes (fun _ => 0x61) 1).2 (by decide) fails
    have cursor := congrArg mCursor ((correct _ failed).failure rfl)
    change (0 + 8 : U64) = 0 at cursor
    exact absurd cursor (by decide)
  · rintro ⟨-, rest⟩
    obtain ⟨correct, -⟩ := rest _ (by rw [step]; exact congrArg _ rfl)
    have passes : ({ eightBytes with mCursor := 1 } : Stream).Passes (-1) := by decide
    have written := tryWrite_of_passes rfl passes fun _ => 0x61
    have advances := (correct _ written).success nofun
    have inside := (advances_iff_inside rfl rfl).mp advances
    revert inside
    decide

/-- Writing four bytes and reading them back is correct. -/
theorem runMeets_correct_eightBytes : Machine.RunMeets step Correct eightBytes
    [.tryWrite (fun _ => 0x61) 4, .seek 0, .tryRead 4] :=
  (runMeets_correct_iff_careful (by decide) rfl _).mpr (by decide)

end Hakkun.Util.Stream
