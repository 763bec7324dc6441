import Hakkun.Model.Container.StringView
import Hakkun.Soundness.FixedString
import Mathlib.Order.Bounds.Defs

/-! # Searching a string for another

A place where a string occurs has the string after what is before it. The search stops before the
last place where the other string still fits, so that it does not find a string that occurs at the
very end and not before: the string itself, its last characters, and the empty string in itself.
-/

namespace Hakkun.Container

open Util

/-! ## Occurrences -/

section Occurrences

variable {T : Type} {text part : List T} {index : ℕ}

/-- What is before a place and the string there are the beginning of the text. -/
def OccursAt (text part : List T) (index : ℕ) : Prop :=
  ∃ before after, text = before ++ part ++ after ∧ before.length = index

theorem OccursAt.add_length_le (occurs : OccursAt text part index) :
    index + part.length ≤ text.length := by
  obtain ⟨before, after, rfl, rfl⟩ := occurs
  simp only [List.length_append]
  omega

theorem occursAt_iff (fits : index + part.length ≤ text.length) :
    OccursAt text part index ↔ (text.drop index).take part.length = part := by
  constructor
  · rintro ⟨before, after, rfl, rfl⟩
    rw [List.append_assoc, List.drop_left, List.take_left]
  · intro same
    refine ⟨text.take index, (text.drop index).drop part.length, ?_, ?_⟩
    · conv_rhs => rw [List.append_assoc, ← same, List.length_take, List.length_drop,
        show min part.length (text.length - index) = part.length by omega, List.take_append_drop,
        List.take_append_drop]
    · rw [List.length_take]
      omega

end Occurrences

namespace StringView

variable {view needle : StringView CChar}

/-- The characters of a view. -/
def content (view : StringView CChar) : List CChar := chars view.data view.length.toNat

@[simp] theorem length_content (view : StringView CChar) :
    view.content.length = view.length.toNat := length_chars _ _

/-- The search gives the first place where the string occurs, and `-1` only without one. -/
structure Finds (view needle : StringView CChar) : Prop where
  first : ∀ index, IsLeast {place | OccursAt view.content needle.content place} index →
    (view.findIndex needle).toNat = index
  missing : view.findIndex needle = -1 ↔ ∀ place, ¬ OccursAt view.content needle.content place

/-! ## The loop -/

theorem drop_content {index amount : ℕ} (fits : index + amount ≤ view.length.toNat) :
    (view.content.drop index).take amount = chars (fun i => view.data (index + i)) amount := by
  obtain ⟨rest, total⟩ := Nat.exists_eq_add_of_le fits
  rw [content, total, Nat.add_assoc, chars_add, List.drop_left' (length_chars _ _), chars_add,
    List.take_left' (length_chars _ _)]

/-- Where the string fits before the end, the test of the loop says whether it occurs. -/
theorem startsWith_add {index : ℕ} (fits : index + needle.length.toNat < view.length.toNat) :
    (view.add (BitVec.ofNat 64 index)).startsWith needle ↔
      OccursAt view.content needle.content index := by
  have small : (BitVec.ofNat 64 index).toNat = index := by
    rw [BitVec.toNat_ofNat]
    omega
  have inside : ¬ view.length ≤ BitVec.ofNat 64 index := by
    rw [BitVec.le_def, small]
    omega
  have left : (view.length - BitVec.ofNat 64 index).toNat = view.length.toNat - index := by
    rw [BitVec.toNat_sub_of_le (by rw [BitVec.le_def, small]; omega), small]
  have room : needle.length ≤ view.length - BitVec.ofNat 64 index := by
    rw [BitVec.le_def, left]
    omega
  rw [occursAt_iff (by simp only [length_content]; omega), length_content,
    drop_content fits.le, add, if_neg inside, startsWith, decide_eq_true room, Bool.true_and,
    beq_iff_eq, small]
  rfl

/-- The loop passes over every place where the string does not occur. -/
theorem findIndexLoop_add {index left : ℕ} (passed : ℕ)
    (fits : index + passed + left + needle.length.toNat = view.length.toNat)
    (absent : ∀ i < passed, ¬ OccursAt view.content needle.content (index + i)) :
    view.findIndexLoop needle (passed + left) (BitVec.ofNat 64 index) =
      view.findIndexLoop needle left (BitVec.ofNat 64 (index + passed)) := by
  induction passed generalizing index with
  | zero => rw [Nat.zero_add, Nat.add_zero]
  | succ passed ih =>
    have here : ¬ (view.add (BitVec.ofNat 64 index)).startsWith needle := by
      rw [startsWith_add (by omega)]
      exact absent 0 (Nat.succ_pos _)
    have next : BitVec.ofNat 64 index + 1 = BitVec.ofNat 64 (index + 1) :=
      (BitVec.ofNat_add index 1).symm
    rw [Nat.succ_add, findIndexLoop, if_neg here, next, ih (by omega)]
    · rw [Nat.add_assoc, Nat.add_comm 1]
    · intro i before
      rw [Nat.add_assoc, Nat.add_comm 1]
      exact absent (i + 1) (Nat.succ_lt_succ before)

theorem findIndex_of_le (shorter : needle.length.toNat ≤ view.length.toNat) :
    view.findIndex needle =
      view.findIndexLoop needle (view.length.toNat - needle.length.toNat) (BitVec.ofNat 64 0) := by
  have order : ¬ view.length < needle.length := by
    rw [BitVec.lt_def]
    omega
  rw [findIndex, if_neg order, BitVec.toNat_sub_of_le (BitVec.le_def.mpr shorter)]
  rfl

/-- Without an occurrence before the last place the search finds nothing. -/
theorem findIndex_of_absent
    (absent : ∀ i < view.length.toNat - needle.length.toNat,
      ¬ OccursAt view.content needle.content i) : view.findIndex needle = -1 := by
  rcases Nat.lt_or_ge view.length.toNat needle.length.toNat with longer | shorter
  · exact if_pos (BitVec.lt_def.mpr longer)
  · rw [findIndex_of_le shorter,
      show view.length.toNat - needle.length.toNat =
        view.length.toNat - needle.length.toNat + 0 from rfl,
      findIndexLoop_add _ (by omega) (by simpa only [Nat.zero_add] using absent)]
    rfl

/-- A first occurrence before the last place is found. -/
theorem findIndex_of_first {index : ℕ}
    (first : IsLeast {place | OccursAt view.content needle.content place} index)
    (before : index ≠ view.length.toNat - needle.length.toNat) :
    view.findIndex needle = BitVec.ofNat 64 index := by
  have fits : index + needle.length.toNat ≤ view.length.toNat := by
    simpa only [length_content] using first.1.add_length_le
  obtain ⟨left, total⟩ : ∃ left,
      index + (left + 1) = view.length.toNat - needle.length.toNat :=
    ⟨view.length.toNat - needle.length.toNat - index - 1, by omega⟩
  have absent (i : ℕ) (smaller : i < index) : ¬ OccursAt view.content needle.content (0 + i) := by
    intro occurs
    have := first.2 occurs
    omega
  rw [findIndex_of_le (by omega), ← total, findIndexLoop_add index (by omega) absent, Nat.zero_add,
    findIndexLoop, if_pos ((startsWith_add (by omega)).mpr first.1)]

/-- The search is right unless the first occurrence is the one at the end. -/
theorem finds_iff (view needle : StringView CChar) :
    view.Finds needle ↔
      ¬ IsLeast {place | OccursAt view.content needle.content place}
        (view.length.toNat - needle.length.toNat) := by
  constructor
  · rintro ⟨_, missing⟩ last
    refine missing.mp (findIndex_of_absent fun i smaller occurs => ?_) _ last.1
    exact Nat.not_le.mpr smaller (last.2 occurs)
  · intro earlier
    have found {index : ℕ}
        (first : IsLeast {place | OccursAt view.content needle.content place} index) :
        index < 2 ^ 64 - 1 ∧ view.findIndex needle = BitVec.ofNat 64 index := by
      have before : index ≠ view.length.toNat - needle.length.toNat := by
        rintro rfl
        exact earlier first
      have fits : index + needle.length.toNat ≤ view.length.toNat := by
        simpa only [length_content] using first.1.add_length_le
      have := view.length.isLt
      exact ⟨by omega, findIndex_of_first first before⟩
    constructor
    · intro index first
      obtain ⟨small, place⟩ := found first
      rw [place, BitVec.toNat_ofNat]
      omega
    · constructor
      · intro nothing place occurs
        classical
        have exists_place : ∃ place, OccursAt view.content needle.content place := ⟨place, occurs⟩
        obtain ⟨small, same⟩ := found
          ⟨Nat.find_spec exists_place, fun other there => Nat.find_min' exists_place there⟩
        have wrong := congrArg BitVec.toNat (same.symm.trans nothing)
        rw [BitVec.toNat_ofNat] at wrong
        change _ = 2 ^ 64 - 1 at wrong
        omega
      · intro absent
        exact findIndex_of_absent fun i _ => absent i

/-- `"b"` at the end of `"ab"` is not found. -/
theorem not_finds :
    ¬ (⟨fun i => [0x61, 0x62].getD i 0, 2⟩ : StringView CChar).Finds
      ⟨fun i => [0x62].getD i 0, 1⟩ := by
  rintro ⟨_, missing⟩
  exact missing.mp (by decide) 1 ⟨[0x61], [], by decide, rfl⟩

end StringView

end Hakkun.Container
