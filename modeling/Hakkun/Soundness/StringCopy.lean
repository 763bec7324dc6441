import Hakkun.Model.Util.StringCopy
import Mathlib.Data.List.Basic

/-! # Copies of strings with a bound

The terminator is written only where the loop ends one element before the bound. A shorter string
keeps what was behind its copy, and a longer one fills all elements of the destination, so neither
is terminated unless the destination had a zero there before. A destination behind the start of the
source overwrites the terminator of the source before it is read, and the loop runs to the bound.
-/

namespace Hakkun.Util

variable {T : Type}

/-- A memory after the first elements of an array are copied. -/
def copied (memory : ℕ → T) (dest src count : ℕ) (a : ℕ) : T :=
  if dest ≤ a ∧ a < dest + count then memory (src + (a - dest)) else memory a

section

variable {memory : ℕ → T} {dest src count i : ℕ}

theorem copied_of_lt (inside : i < count) : copied memory dest src count (dest + i) =
    memory (src + i) := by
  rw [copied, if_pos (by omega), Nat.add_sub_cancel_left]

theorem copied_of_outside {a : ℕ} (outside : a < dest ∨ dest + count ≤ a) :
    copied memory dest src count a = memory a := if_neg (by omega)

theorem copied_zero : copied memory dest src 0 = memory := by
  funext a
  exact copied_of_outside (by omega)

theorem copied_succ : copied memory dest src (count + 1) =
    Function.update (copied memory dest src count) (dest + count) (memory (src + count)) := by
  funext a
  rcases eq_or_ne a (dest + count) with rfl | different
  · rw [Function.update_self, copied_of_lt (Nat.lt_succ_self count)]
  · rw [Function.update_of_ne different, copied, copied]
    congr 1
    simp only [eq_iff_iff]
    omega

end

variable [Zero T]

/-- A null-terminated string is at a position. -/
structure StringAt (memory : ℕ → T) (start : ℕ) (string : List T) : Prop where
  nonzero : ∀ c ∈ string, c ≠ 0
  elements : ∀ i (inside : i < string.length), memory (start + i) = string[i]
  terminator : memory (start + string.length) = 0

namespace StringAt

variable {memory : ℕ → T} {start : ℕ} {string : List T}

theorem ne_zero (source : StringAt memory start string) {i : ℕ} (inside : i < string.length) :
    memory (start + i) ≠ 0 := by
  rw [source.elements i inside]
  exact source.nonzero _ (List.getElem_mem inside)

/-- The same elements with a terminator are the same string. -/
theorem of_eq (source : StringAt memory start string) {after : ℕ → T} {dest : ℕ}
    (same : ∀ i < string.length, after (dest + i) = memory (start + i))
    (terminator : after (dest + string.length) = 0) : StringAt after dest string where
  nonzero := source.nonzero
  elements i inside := (same i inside).trans (source.elements i inside)
  terminator := terminator

end StringAt

variable [DecidableEq T] {w : ℕ}

/-- At most `max` elements are written, and the destination has the longest prefix of the string
that fits with its terminator. -/
structure CopiesBounded (memory : ℕ → T) (dest src : ℕ) (max : BitVec w) (string : List T) :
    Prop where
  frame : ∀ a, a < dest ∨ dest + max.toNat ≤ a →
    copyFromNullTerminated dest src max memory a = memory a
  string : StringAt (copyFromNullTerminated dest src max memory) dest
    (string.take (max.toNat - 1))

/-- The string ends one element before the bound, or earlier where the destination has a zero, and
the destination does not begin behind the start of the string. -/
def Terminates (memory : ℕ → T) (dest src : ℕ) (max : BitVec w) (string : List T) : Prop :=
  (dest ≤ src ∨ src + string.length < dest) ∧
    (string.length + 1 = max.toNat ∨
      string.length + 1 < max.toNat ∧ memory (dest + string.length) = 0)

instance (memory : ℕ → T) (dest src : ℕ) (max : BitVec w) (string : List T) :
    Decidable (Terminates memory dest src max string) :=
  inferInstanceAs (Decidable ((_ ∨ _) ∧ (_ ∨ _ ∧ _)))

variable {memory : ℕ → T} {dest src : ℕ} {max : BitVec w} {string : List T}

theorem ofNat_succ (i : ℕ) : BitVec.ofNat w i + 1 = BitVec.ofNat w (i + 1) :=
  (BitVec.ofNat_add i 1).symm

/-- A turn before the bound compares below it. -/
theorem ofNat_lt (max : BitVec w) {i : ℕ} (before : i < max.toNat) :
    (BitVec.ofNat w i).toNat = i ∧ BitVec.ofNat w i < max := by
  have value : (BitVec.ofNat w i).toNat = i := by
    rw [BitVec.toNat_ofNat, Nat.mod_eq_of_lt (before.trans max.isLt)]
  refine ⟨value, ?_⟩
  rwa [BitVec.lt_def, value]

/-- Where the arrays do not disturb each other the loop copies up to the end of the string or the
bound. -/
theorem copyLoop_eq (source : StringAt memory src string)
    (clear : dest ≤ src ∨ src + string.length < dest) {turns i : ℕ}
    (bound : i + turns = max.toNat) (within : i ≤ string.length) :
    copyLoop dest src max turns (.ofNat w i) (copied memory dest src i) =
      (.ofNat w (min string.length max.toNat),
        copied memory dest src (min string.length max.toNat)) := by
  induction turns generalizing i with
  | zero =>
    have last : min string.length max.toNat = i := by omega
    rw [last]
    rfl
  | succ turns ih =>
    obtain ⟨value, below⟩ := ofNat_lt max (i := i) (by omega)
    have unread : copied memory dest src i (src + i) = memory (src + i) :=
      copied_of_outside (by omega)
    rw [copyLoop, value, unread]
    rcases within.lt_or_eq with inside | rfl
    · rw [if_pos ⟨below, source.ne_zero inside⟩, ofNat_succ, ← copied_succ]
      exact ih (by omega) inside
    · have last : min string.length max.toNat = string.length := by omega
      rw [if_neg fun more => more.2 source.terminator, last]

/-- A destination behind the start of the string: every element that is read was copied before, so
no zero is read. -/
theorem copyLoop_of_overlap {shift : ℕ} (behind : 0 < shift) {turns i : ℕ} {between : ℕ → T}
    (bound : i + turns = max.toNat) (nonzero : ∀ j < i + shift, between (src + j) ≠ 0) :
    ∃ after, copyLoop (src + shift) src max turns (.ofNat w i) between = (max, after) ∧
      ∀ j < max.toNat + shift, after (src + j) ≠ 0 := by
  induction turns generalizing i between with
  | zero =>
    have last : i = max.toNat := by omega
    refine ⟨between, ?_, by rwa [← last]⟩
    rw [copyLoop, last, BitVec.ofNat_toNat, BitVec.setWidth_eq]
  | succ turns ih =>
    obtain ⟨value, below⟩ := ofNat_lt max (i := i) (by omega)
    rw [copyLoop, value, if_pos ⟨below, nonzero i (by omega)⟩, ofNat_succ]
    apply ih (by omega)
    intro j near
    rcases eq_or_ne (src + j) (src + shift + i) with same | different
    · rw [same, Function.update_self]
      exact nonzero i (by omega)
    · rw [Function.update_of_ne different]
      exact nonzero j (by omega)

/-- The test behind the loop: the turns end one element before the bound. -/
theorem stops_iff (positive : max ≠ 0) (length : ℕ) :
    BitVec.ofNat w (min length max.toNat) = max - 1 ↔ length + 1 = max.toNat := by
  have large : 0 < max.toNat := BitVec.toNat_pos_of_ne_zero positive
  have small := max.isLt
  have one : (1#w).toNat = 1 := by
    rw [BitVec.toNat_ofNat, Nat.mod_eq_of_lt (by omega)]
  have before : (max - 1#w).toNat = max.toNat - 1 := by
    rw [BitVec.toNat_sub_of_le (by rw [BitVec.le_def, one]; exact large), one]
  rw [← BitVec.toNat_inj, BitVec.toNat_ofNat, Nat.mod_eq_of_lt (by omega)]
  change _ = (max - 1#w).toNat ↔ _
  rw [before]
  omega

/-- What is left where the arrays do not disturb each other. -/
theorem copyFromNullTerminated_eq (positive : max ≠ 0) (source : StringAt memory src string)
    (clear : dest ≤ src ∨ src + string.length < dest) :
    copyFromNullTerminated dest src max memory =
      if string.length + 1 = max.toNat then
        Function.update (copied memory dest src string.length) (dest + string.length) 0
      else copied memory dest src (min string.length max.toNat) := by
  have ran : copyLoop dest src max max.toNat 0 memory =
      (.ofNat w (min string.length max.toNat),
        copied memory dest src (min string.length max.toNat)) := by
    have loop := copyLoop_eq source clear (Nat.zero_add max.toNat) (Nat.zero_le _)
    rwa [copied_zero] at loop
  rw [copyFromNullTerminated, ran]
  simp only [stops_iff positive]
  split
  next exactly =>
    have last : min string.length max.toNat = string.length := by omega
    rw [last, BitVec.toNat_ofNat, Nat.mod_eq_of_lt (by have := max.isLt; omega)]
  next => rfl

/-- What is left where the destination is behind the start of the string: no zero within the
bound. -/
theorem copyFromNullTerminated_of_overlap (positive : max ≠ 0)
    (source : StringAt memory src string) (behind : src < dest)
    (before : dest ≤ src + string.length) {j : ℕ} (near : j < max.toNat) :
    copyFromNullTerminated dest src max memory (dest + j) ≠ 0 := by
  obtain ⟨shift, rfl⟩ := Nat.exists_eq_add_of_lt behind
  have start : ∀ j < 0 + (shift + 1), memory (src + j) ≠ 0 := fun j low =>
    source.ne_zero (by omega)
  have loop : ∃ after, copyLoop (src + (shift + 1)) src max max.toNat 0 memory = (max, after) ∧
      ∀ j < max.toNat + (shift + 1), after (src + j) ≠ 0 :=
    copyLoop_of_overlap (Nat.succ_pos shift) (Nat.zero_add max.toNat) start
  obtain ⟨after, ran, nonzero⟩ := loop
  have going : max ≠ max - 1 := by
    intro same
    have stops := stops_iff positive max.toNat
    rw [min_self, BitVec.ofNat_toNat, BitVec.setWidth_eq] at stops
    have := stops.mp same
    omega
  rw [copyFromNullTerminated, Nat.add_assoc src, ran]
  dsimp only
  rw [if_neg going, Nat.add_assoc]
  exact nonzero _ (by omega)

theorem terminates_of_copiesBounded (positive : max ≠ 0) (source : StringAt memory src string)
    (copies : CopiesBounded memory dest src max string) :
    Terminates memory dest src max string := by
  have large : 0 < max.toNat := BitVec.toNat_pos_of_ne_zero positive
  have terminator := copies.string.terminator
  rw [List.length_take] at terminator
  have clear : dest ≤ src ∨ src + string.length < dest := by
    by_contra disturbed
    exact copyFromNullTerminated_of_overlap positive source (by omega) (by omega) (by omega)
      terminator
  refine ⟨clear, ?_⟩
  rw [copyFromNullTerminated_eq positive source clear] at terminator
  rcases Nat.lt_trichotomy (string.length + 1) max.toNat with short | exactly | long
  · have fitting : min (max.toNat - 1) string.length = string.length := by omega
    have turned : min string.length max.toNat = string.length := by omega
    rw [if_neg (by omega), fitting, turned, copied_of_outside (by omega)] at terminator
    exact .inr ⟨short, terminator⟩
  · exact .inl exactly
  · have fitting : min (max.toNat - 1) string.length = max.toNat - 1 := by omega
    rw [if_neg (by omega), fitting, copied_of_lt (by omega)] at terminator
    exact absurd terminator (source.ne_zero (by omega))

theorem copiesBounded_of_terminates (positive : max ≠ 0) (source : StringAt memory src string)
    (terminates : Terminates memory dest src max string) :
    CopiesBounded memory dest src max string := by
  obtain ⟨clear, ends⟩ := terminates
  have whole : string.take (max.toNat - 1) = string := List.take_of_length_le (by omega)
  have left := copyFromNullTerminated_eq positive source clear
  rcases ends with exactly | ⟨short, zero⟩
  · rw [if_pos exactly] at left
    constructor
    · intro a outside
      rw [left, Function.update_of_ne (by omega), copied_of_outside (by omega)]
    · rw [whole, left]
      refine source.of_eq (fun i inside => ?_) (Function.update_self ..)
      rw [Function.update_of_ne (by omega), copied_of_lt inside]
  · rw [if_neg (by omega), min_eq_left (by omega)] at left
    constructor
    · intro a outside
      rw [left, copied_of_outside (by omega)]
    · rw [whole, left]
      refine source.of_eq (fun i inside => copied_of_lt inside) ?_
      rw [copied_of_outside (by omega), zero]

/-- A copy is bounded and terminated exactly where the string ends one element before the bound, or
earlier in front of a zero. -/
theorem copiesBounded_iff (positive : max ≠ 0) (source : StringAt memory src string) :
    CopiesBounded memory dest src max string ↔ Terminates memory dest src max string :=
  ⟨terminates_of_copiesBounded positive source, copiesBounded_of_terminates positive source⟩

/-- The string `"abc"` at the start of a memory that is full of other characters. -/
def abc (a : ℕ) : BitVec 8 := if a = 3 then 0 else .ofNat 8 (0x61 + a)

theorem stringAt_abc : StringAt abc 0 [0x61, 0x62, 0x63] where
  nonzero := by decide
  elements := by decide
  terminator := rfl

theorem copiesBounded_abc : CopiesBounded abc 8 0 (4 : BitVec 64) [0x61, 0x62, 0x63] :=
  (copiesBounded_iff (by decide) stringAt_abc).mpr (by decide)

/-- With the default bound, with room for more and with room for less the copy has no
terminator. -/
theorem not_copiesBounded :
    StringAt abc 0 [0x61, 0x62, 0x63] ∧
      ∀ max ∈ [maxDefault, (8 : BitVec 64), 3],
        max ≠ 0 ∧ ¬ CopiesBounded abc 8 0 max [0x61, 0x62, 0x63] := by
  refine ⟨stringAt_abc, ?_⟩
  intro max member
  simp only [List.mem_cons, List.not_mem_nil, or_false] at member
  rcases member with rfl | rfl | rfl
  · exact ⟨by decide, fun copies => absurd copies.string.terminator (by decide)⟩
  · exact ⟨by decide, fun copies => absurd copies.string.terminator (by decide)⟩
  · exact ⟨by decide, fun copies => absurd copies.string.terminator (by decide)⟩

end Hakkun.Util
