import Hakkun.Math.Insertion
import Hakkun.Model.Util.Algorithm

/-! # What a binary search finds

On an ascending sequence of at most `2 ^ 30` values, in which a value may be more than once, the
search comes to an end and only reads values of the sequence. It finds a value that is there, and
otherwise the place where it belongs.
-/

namespace Hakkun.Util

variable {T : Type*} [LinearOrder T]

/-- What the search for a value gives. -/
def Located (values : List T) (searchValue : T) (findBetween : Bool) (index : ℤ) : Prop :=
  if searchValue ∈ values then ∃ i : ℕ, index = i ∧ values[i]? = some searchValue
  else if findBetween then ∃ i : ℕ, index = i ∧ i ≤ values.length ∧
    (values.insertIdx i searchValue).Pairwise (· ≤ ·)
  else index = -1

/-- A value that is read outside of the sequence has no result. -/
theorem located_of_sorted (values : List T) (sorted : values.Pairwise (· ≤ ·))
    (small : values.length ≤ 2 ^ 30) (searchValue : T) (findBetween : Bool) :
    ∃ index, binarySearch (values[·]?) 0 (toS32 (values.length - 1)) searchValue findBetween =
        some index ∧
      Located values searchValue findBetween index := by
  by_cases member : searchValue ∈ values
  · obtain ⟨i, here, found⟩ := binarySearch_of_mem sorted small member findBetween
    refine ⟨i, found, ?_⟩
    rw [Located, if_pos member]
    exact ⟨i, rfl, here⟩
  · obtain ⟨i, bound, below, above, found⟩ := binarySearch_of_not_mem sorted small member
    refine ⟨_, found findBetween, ?_⟩
    rw [Located, if_neg member]
    cases findBetween with
    | false => rfl
    | true =>
      refine ⟨i, rfl, bound, Math.pairwise_insertIdx sorted bound ?_ ?_⟩
      · exact fun a before => (below a before).le
      · exact fun a after => (above a after).le

/-- A value that is there twice, and one that is not there. -/
theorem located_five :
    (∃ index, binarySearch ([1, 3, 3, 7, 9][·]?) 0 (toS32 4) 3 false = some index ∧
      Located [1, 3, 3, 7, 9] 3 false index) ∧
    ∃ index, binarySearch ([1, 3, 3, 7, 9][·]?) 0 (toS32 4) 8 true = some index ∧
      Located [1, 3, 3, 7, 9] 8 true index :=
  ⟨located_of_sorted [1, 3, 3, 7, 9] (by decide) (by decide) 3 false,
    located_of_sorted [1, 3, 3, 7, 9] (by decide) (by decide) 8 true⟩

/-! ## Sequences that are too long -/

/-- Without an overflow the middle is always before the last value, and the search for that value
goes on behind it. -/
theorem binarySearchLoop_of_large {values : List T} (ascending : values.Pairwise (· < ·)) {high : ℕ}
    {last : T} (here : values[high]? = some last) (large : 2 ^ 30 ≤ high) {fuel : ℕ} {low : ℤ}
    (lower : 0 ≤ low) (within : low ≤ high) :
    binarySearchLoop (values[·]?) last false fuel low high = none := by
  induction fuel generalizing low with
  | zero => rfl
  | succ fuel ih =>
    rw [binarySearchLoop, if_pos within]
    rcases Int.lt_or_le (low + high) (2 ^ 31) with fits | overflow
    · have before : ((low + high) / 2).toNat < high := by omega
      obtain ⟨bound, rfl⟩ := List.getElem?_eq_some_iff.mp here
      have read := List.getElem?_eq_getElem (before.trans bound)
      have less := List.pairwise_iff_getElem.mp ascending _ _ (before.trans bound) bound before
      rw [if_neg (by omega)]
      simp only [read, if_neg less.ne, if_pos less]
      exact ih (by omega) (by omega)
    · rw [if_pos overflow]

/-- Among more than `2 ^ 30` values the last one is not found. -/
theorem not_found_of_large {values : List T} (ascending : values.Pairwise (· < ·))
    (large : 2 ^ 30 < values.length) (few : values.length ≤ 2 ^ 32) :
    ∃ value ∈ values, ∀ i : ℕ,
      binarySearch (values[·]?) 0 (toS32 (values.length - 1)) value false ≠ some (i : ℤ) := by
  have bound : values.length - 1 < values.length := by omega
  have here := List.getElem?_eq_getElem bound
  refine ⟨values[values.length - 1], List.getElem_mem bound, fun i found => ?_⟩
  rcases Nat.lt_or_ge (values.length - 1) (2 ^ 31) with short | long
  · have last : toS32 (values.length - 1) = ((values.length - 1 : ℕ) : ℤ) := by
      rw [toS32_of_lt (by omega) (by omega)]
      omega
    rw [last, binarySearch, binarySearchLoop_of_large ascending here (by omega) (le_refl 0)
      (by omega)] at found
    cases found
  · -- the last index is negative as an `s32`, so that nothing is read
    have negative : toS32 (values.length - 1) < 0 := by
      rw [toS32, Int.bmod_def]
      split <;> omega
    rw [binarySearch, binarySearchLoop, if_neg (by omega)] at found
    have := Option.some.inj found
    rw [if_neg Bool.false_ne_true] at this
    omega

end Hakkun.Util
