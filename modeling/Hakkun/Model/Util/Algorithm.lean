import Mathlib.Data.List.Basic
import Mathlib.Data.Int.Order.Basic
import Mathlib.Order.Lattice
import Mathlib.Tactic.Ring

/-! # Binary search

`util::binarySearch` of `hk/util/Algorithm.h`. The bounds are `s32`, so the sum of two bounds may
overflow, which has no defined result; neither has an access outside the searched range. On an
ascending list of at most `2 ^ 30` keys the search is defined, finds every key that is there, and
otherwise finds the place where the key belongs.
-/

namespace Hakkun.Util

/-- The conversion of a size to `s32`. -/
def toS32 (value : ℤ) : ℤ := Int.bmod value (2 ^ 32)

theorem toS32_of_lt {value : ℤ} (lower : -(2 ^ 31) ≤ value) (upper : value < 2 ^ 31) :
    toS32 value = value := by
  unfold toS32
  apply Int.bmod_eq_of_le <;> omega

variable {T : Type*} [LinearOrder T]

/-- The loop of `binarySearch`; its bounds are never negative when they are added. -/
def binarySearchLoop (get : ℕ → Option T) (searchValue : T) (findBetween : Bool) :
    ℕ → ℤ → ℤ → Option ℤ
  | 0, _, _ => none
  | fuel + 1, low, high =>
    if low ≤ high then
      if 2 ^ 31 ≤ low + high then none
      else
        let mid := (low + high) / 2
        match get mid.toNat with
        | none => none
        | some value =>
          if value = searchValue then some mid
          else if value < searchValue then
            binarySearchLoop get searchValue findBetween fuel (mid + 1) high
          else binarySearchLoop get searchValue findBetween fuel low (mid - 1)
    else some (if findBetween then low else -1)

/-- The index of a key, or where it belongs, or -1; `none` where the behaviour is undefined. -/
def binarySearch (get : ℕ → Option T) (low high : ℤ) (searchValue : T) (findBetween : Bool) :
    Option ℤ :=
  binarySearchLoop get searchValue findBetween ((high + 1 - low).toNat + 1) low high

/-- What is found is the key that was asked for. -/
theorem get_of_binarySearchLoop {get : ℕ → Option T} {searchValue : T} {fuel : ℕ}
    {low high index : ℤ} (lower : 0 ≤ low)
    (found : binarySearchLoop get searchValue false fuel low high = some index)
    (hit : index ≠ -1) : 0 ≤ index ∧ get index.toNat = some searchValue := by
  induction fuel generalizing low high with
  | zero => cases found
  | succ fuel ih =>
    unfold binarySearchLoop at found
    by_cases range : low ≤ high
    · rw [if_pos range] at found
      split_ifs at found with overflow
      cases read : get ((low + high) / 2).toNat with
      | none => simp [read] at found
      | some value =>
        simp only [read] at found
        split_ifs at found with same less
        · cases found
          exact ⟨by omega, by rw [read, same]⟩
        · exact ih (by omega) found
        · exact ih lower found
    · rw [if_neg range] at found
      exact absurd (Option.some.inj found).symm hit

theorem get_of_binarySearch {get : ℕ → Option T} {searchValue : T} {high index : ℤ}
    (found : binarySearch get 0 high searchValue false = some index) (hit : index ≠ -1) :
    0 ≤ index ∧ get index.toNat = some searchValue :=
  get_of_binarySearchLoop (le_refl 0) found hit

section Ascending

variable {keys : List T} (sorted : keys.Pairwise (· ≤ ·))

include sorted in
private theorem ascending {i j : ℕ} {a b : T} (order : i < j) (here : keys[i]? = some a)
    (there : keys[j]? = some b) : a ≤ b := by
  obtain ⟨boundi, rfl⟩ := List.getElem?_eq_some_iff.mp here
  obtain ⟨boundj, rfl⟩ := List.getElem?_eq_some_iff.mp there
  exact List.pairwise_iff_getElem.mp sorted i j boundi boundj order

include sorted in
/-- One run of the loop between bounds that exclude smaller and larger keys. -/
theorem binarySearchLoop_spec (searchValue : T) (findBetween : Bool) {fuel : ℕ} {low : ℤ} (high : ℤ)
    (lower : 0 ≤ low) (upper : high < keys.length) (width : low ≤ high + 1)
    (small : keys.length ≤ 2 ^ 30) (enough : (high + 1 - low).toNat < fuel)
    (below : ∀ i : ℕ, i < low → ∀ a, keys[i]? = some a → a < searchValue)
    (above : ∀ i : ℕ, high < i → ∀ a, keys[i]? = some a → searchValue < a) :
    (∃ i : ℕ, keys[i]? = some searchValue ∧
      binarySearchLoop (keys[·]?) searchValue findBetween fuel low high = some (i : ℤ)) ∨
    (∃ i : ℕ, i ≤ keys.length ∧ (∀ j : ℕ, j < i → ∀ a, keys[j]? = some a → a < searchValue) ∧
      (∀ j : ℕ, i ≤ j → ∀ a, keys[j]? = some a → searchValue < a) ∧
      binarySearchLoop (keys[·]?) searchValue findBetween fuel low high =
        some (if findBetween then (i : ℤ) else -1)) := by
  induction fuel generalizing low high with
  | zero => omega
  | succ fuel ih =>
    unfold binarySearchLoop
    by_cases range : low ≤ high
    · have bound : ((low + high) / 2).toNat < keys.length := by omega
      have read : keys[((low + high) / 2).toNat]? = some keys[((low + high) / 2).toNat] :=
        List.getElem?_eq_getElem bound
      rw [if_pos range, if_neg (by omega)]
      simp only [read]
      generalize keys[((low + high) / 2).toNat] = value at read
      by_cases same : value = searchValue
      · refine .inl ⟨((low + high) / 2).toNat, by rw [read, same], ?_⟩
        rw [if_pos same, Int.toNat_of_nonneg (by omega)]
      · rw [if_neg same]
        by_cases less : value < searchValue
        · rw [if_pos less]
          apply ih high (by omega) upper (by omega) (by omega)
          · intro i before a here
            rcases Nat.lt_or_eq_of_le (show i ≤ ((low + high) / 2).toNat by omega) with earlier | rfl
            · exact (ascending sorted earlier here read).trans_lt less
            · rw [read] at here
              exact Option.some.inj here ▸ less
          · exact above
        · rw [if_neg less]
          have greater : searchValue < value := lt_of_le_of_ne (not_lt.mp less) (Ne.symm same)
          apply ih _ lower (by omega) (by omega) (by omega)
          · exact below
          · intro i after a here
            rcases Nat.lt_or_eq_of_le (show ((low + high) / 2).toNat ≤ i by omega) with later | rfl
            · exact greater.trans_le (ascending sorted later read here)
            · rw [read] at here
              exact Option.some.inj here ▸ greater
    · rw [if_neg range]
      refine .inr ⟨low.toNat, by omega, ?_, ?_, ?_⟩
      · intro j before
        exact below j (by omega)
      · intro j after
        exact above j (by omega)
      · rw [Int.toNat_of_nonneg lower]

include sorted in
/-- A key that is there is found where it is. -/
theorem binarySearch_of_mem {searchValue : T} (small : keys.length ≤ 2 ^ 30)
    (member : searchValue ∈ keys) (findBetween : Bool) :
    ∃ i : ℕ, keys[i]? = some searchValue ∧
      binarySearch (keys[·]?) 0 (toS32 (keys.length - 1)) searchValue findBetween =
        some (i : ℤ) := by
  rw [toS32_of_lt (by omega) (by omega)]
  rcases binarySearchLoop_spec sorted searchValue findBetween (keys.length - 1) (le_refl 0)
    (by omega) (by omega) small (Nat.lt_succ_self _) (by omega) (by
      intro i after a here
      have := (List.getElem?_eq_some_iff.mp here).1
      omega) with found | ⟨i, _, below, above, _⟩
  · exact found
  · obtain ⟨j, here⟩ := List.getElem?_of_mem member
    rcases Nat.lt_or_ge j i with before | after
    · exact absurd (below j before _ here) (lt_irrefl _)
    · exact absurd (above j after _ here) (lt_irrefl _)

include sorted in
/-- A key that is not there is reported as -1, or where it belongs. -/
theorem binarySearch_of_not_mem {searchValue : T} (small : keys.length ≤ 2 ^ 30)
    (absent : searchValue ∉ keys) :
    ∃ i : ℕ, i ≤ keys.length ∧ (∀ a ∈ keys.take i, a < searchValue) ∧
      (∀ a ∈ keys.drop i, searchValue < a) ∧ ∀ findBetween : Bool,
        binarySearch (keys[·]?) 0 (toS32 (keys.length - 1)) searchValue findBetween =
          some (if findBetween then (i : ℤ) else -1) := by
  rw [toS32_of_lt (by omega) (by omega)]
  have spec (findBetween : Bool) := binarySearchLoop_spec sorted searchValue findBetween
    (keys.length - 1) (le_refl 0) (by omega) (by omega) small (Nat.lt_succ_self _) (by omega) (by
      intro i after a here
      have := (List.getElem?_eq_some_iff.mp here).1
      omega)
  have missing (i : ℕ) (here : keys[i]? = some searchValue) : False :=
    absent (List.mem_of_getElem? here)
  obtain ⟨i, here, -⟩ | ⟨i, bound, below, above, between⟩ := spec true
  · exact (missing i here).elim
  refine ⟨i, bound, ?_, ?_, ?_⟩
  · intro a member
    obtain ⟨j, here⟩ := List.getElem?_of_mem member
    rw [List.getElem?_take] at here
    split_ifs at here with before
    exact below j before a here
  · intro a member
    obtain ⟨j, here⟩ := List.getElem?_of_mem member
    rw [List.getElem?_drop] at here
    exact above (i + j) (by omega) a here
  · rintro (_ | _)
    · obtain ⟨i, here, -⟩ | ⟨_, _, _, _, exactly⟩ := spec false
      · exact (missing i here).elim
      · exact exactly
    · exact between

end Ascending

end Hakkun.Util
