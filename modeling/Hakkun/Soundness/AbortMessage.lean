import Hakkun.Model.Diag.Abort

/-! # What is shown of the message of an abort

The second newline is written at the length of the whole text, but the text begins behind the first
newline. So it replaces the last character of a text that fits, it is behind the terminator or
outside of the buffer for a text that does not, and it is in its place for one length only.
-/

namespace Hakkun.Diag

open Machine

/-- What fits into the buffer of a text. -/
def shown (text : List Byte) : List Byte := text.take (cMsgBufSize - 2)

/-- A buffer with the message between newlines, and a string that fits into its slot. -/
structure Delivers (text buffer : List Byte) : Prop where
  framed : buffer.take ((shown text).length + 3) = newline :: shown text ++ [newline, 0]
  fits : strlen buffer + 1 ≤ cSlotSize

variable {text buffer : List Byte}

/-- The buffer before the second newline is written. -/
theorem userMsgBuf_eq (text : List Byte) : ∃ buffer : List Byte,
    buffer.length = cMsgBufSize + 1 ∧ userMsgBuf text = store buffer text.length [newline] ∧
      ∀ i, buffer[i]? =
        if 1 ≤ i ∧ i < 1 + (shown text).length then (shown text)[i - 1]?
        else if i = 0 then some newline else if i ≤ cMsgBufSize then some 0 else none := by
  have short : (shown text).length ≤ 126 := List.length_take_le _ _
  have first : store (List.replicate (cMsgBufSize + 1) 0) 0 [newline] =
      some (newline :: List.replicate cMsgBufSize 0) := by
    rw [List.replicate_succ, store_cons, List.length_cons, if_pos (Nat.succ_pos _)]
    rfl
  have size : (newline :: List.replicate cMsgBufSize (0 : Byte)).length = cMsgBufSize + 1 := by
    rw [List.length_cons, List.length_replicate]
  have room : (store (newline :: List.replicate cMsgBufSize 0) 1
      (shown text ++ [0])).isSome = true := (store_isSome_iff _).mpr fun _ => by
    rw [size, List.length_append, List.length_singleton, cMsgBufSize]
    omega
  obtain ⟨buffer, stored⟩ := Option.isSome_iff_exists.mp room
  refine ⟨buffer, (length_of_store stored).trans size, ?_, fun i => ?_⟩
  · rw [userMsgBuf]
    simp only [first, Option.bind_some, vsnprintf]
    rw [if_neg (by decide), show cMsgBufSize - 1 - 1 = cMsgBufSize - 2 from rfl, ← shown, stored]
    rfl
  · rw [getElem?_of_store stored, List.length_append, List.length_singleton]
    rcases Nat.lt_trichotomy i (1 + (shown text).length) with inside | rfl | behind
    · rcases Nat.eq_zero_or_pos i with rfl | positive
      · rfl
      · rw [if_pos (by omega), if_pos ⟨positive, inside⟩, List.getElem?_append_left (by omega)]
    · rw [if_pos (by omega), if_neg (by omega), if_neg (by omega),
        if_pos (by rw [cMsgBufSize]; omega), List.getElem?_append_right (by omega)]
      simp
    · rw [if_neg (by omega), if_neg (by omega), if_neg (by omega)]
      obtain ⟨j, rfl⟩ : ∃ j, i = j + 1 := ⟨i - 1, by omega⟩
      rw [List.getElem?_cons_succ, List.getElem?_replicate]
      congr 1

theorem length_shown (text : List Byte) : (shown text).length = min 126 text.length :=
  List.length_take

/-- A character of a delivered buffer. -/
theorem Delivers.getElem? (delivers : Delivers text buffer) :
    buffer[1 + (shown text).length]? = some newline := by
  have character := congrArg (·[1 + (shown text).length]?) delivers.framed
  rw [List.getElem?_take_of_lt (by omega), List.getElem?_append_right (by simp [Nat.add_comm]),
    List.length_cons, Nat.add_comm 1, Nat.sub_self] at character
  rwa [Nat.add_comm]

/-- Only a text of one character more than there is room for is delivered. -/
theorem length_of_delivers (printed : userMsgBuf text = some buffer)
    (delivers : Delivers text buffer) : text.length = 127 := by
  obtain ⟨base, -, stored, elements⟩ := userMsgBuf_eq text
  have count := length_shown text
  have second := delivers.getElem?
  rw [printed] at stored
  rw [getElem?_of_store stored.symm, List.length_singleton] at second
  by_contra other
  rw [if_neg (by omega), elements, if_neg (by omega), if_neg (by omega),
    if_pos (by rw [cMsgBufSize]; omega)] at second
  exact absurd second (by decide)

theorem delivers_of_length (long : text.length = 127) :
    ∃ buffer, userMsgBuf text = some buffer ∧ Delivers text buffer := by
  obtain ⟨base, size, stored, elements⟩ := userMsgBuf_eq text
  have count := length_shown text
  have room : (store base text.length [newline]).isSome = true :=
    (store_isSome_iff _).mpr fun _ => by
      rw [size, long]
      decide
  obtain ⟨buffer, done⟩ := Option.isSome_iff_exists.mp room
  refine ⟨buffer, stored.trans done, ?_, ?_⟩
  · apply List.ext_getElem?
    intro i
    rw [List.getElem?_take, getElem?_of_store done, elements, List.length_singleton, cMsgBufSize]
    rcases Nat.lt_trichotomy i 127 with inside | rfl | behind
    · rw [if_pos (by omega), if_neg (by omega), List.getElem?_append_left (by simp; omega)]
      rcases Nat.eq_zero_or_pos i with rfl | positive
      · rfl
      · obtain ⟨j, rfl⟩ : ∃ j, i = j + 1 := ⟨i - 1, by omega⟩
        rw [if_pos (by omega), List.getElem?_cons_succ, Nat.add_sub_cancel]
    · rw [if_pos (by omega), if_pos (by omega), List.getElem?_append_right (by simp; omega), long]
      simp [count, long]
    · rw [List.getElem?_append_right (by simp; omega)]
      rcases Nat.eq_or_lt_of_le behind with rfl | outside
      · rw [if_pos (by omega), if_neg (by omega), if_neg (by omega)]
        simp [count, long]
      · rw [if_neg (by omega), List.getElem?_eq_none (by simp [count, long]; omega)]
  · have := (length_of_store done).trans size
    have inside : strlen buffer ≤ buffer.length := List.findIdx_le_length
    rw [cSlotSize]
    simp only [cMsgBufSize] at *
    omega

/-- The message is delivered when it is as long as the text that the buffer has room for with one
newline. -/
theorem delivers_iff (text : List Byte) :
    (∃ buffer, userMsgBuf text = some buffer ∧ Delivers text buffer) ↔
      text.length = 127 := by
  constructor
  · rintro ⟨buffer, printed, delivers⟩
    exact length_of_delivers printed delivers
  · exact delivers_of_length

/-- Of a short message the last character is replaced, and of a long one the newline is written
outside of the buffer. -/
theorem not_delivers :
    (¬ ∃ buffer, userMsgBuf [0x61, 0x62] = some buffer ∧ Delivers [0x61, 0x62] buffer) ∧
      userMsgBuf (List.replicate 129 0x61) = none := by
  constructor
  · rintro ⟨buffer, printed, delivers⟩
    exact absurd (length_of_delivers printed delivers) (by decide)
  · obtain ⟨base, size, stored, -⟩ := userMsgBuf_eq (List.replicate 129 0x61)
    rw [stored, List.length_replicate, store_cons, size, if_neg (by decide)]

end Hakkun.Diag
