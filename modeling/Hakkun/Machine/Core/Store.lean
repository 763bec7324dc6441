import Mathlib.Data.List.Basic
import Mathlib.Data.Option.Basic

/-! # Values stored in place

Values are stored one after the other into a list that keeps its length; a place beyond its end is
an error. What is read at a place afterwards is the value of the last store that covers it.
-/

namespace Hakkun.Machine

variable {α : Type*} {data after : List α} {place : ℕ}

def store (data : List α) (place : ℕ) : List α → Option (List α)
  | [] => some data
  | value :: rest => if place < data.length then store (data.set place value) (place + 1) rest else none

@[simp] theorem store_nil : store data place [] = some data := rfl

theorem store_cons (data : List α) (place : ℕ) (value : α) (rest : List α) :
    store data place (value :: rest) =
      if place < data.length then store (data.set place value) (place + 1) rest else none := rfl

theorem length_of_store {values : List α} (stored : store data place values = some after) :
    after.length = data.length := by
  induction values generalizing data place with
  | nil =>
    obtain rfl := Option.some.inj stored
    rfl
  | cons value rest ih =>
    obtain ⟨-, stored⟩ := Option.ite_none_right_eq_some.mp stored
    rw [ih stored, List.length_set]

/-- Everything that is stored has to be inside. -/
theorem store_isSome_iff (values : List α) :
    (store data place values).isSome = true ↔
      values ≠ [] → place + values.length ≤ data.length := by
  induction values generalizing data place with
  | nil => exact iff_of_true rfl nofun
  | cons value rest ih =>
    rw [store_cons]
    split
    · rename_i inside
      rw [ih, List.length_set, List.length_cons]
      constructor
      · intro fits _
        cases rest with
        | nil => exact inside
        | cons next rest =>
          have := fits nofun
          omega
      · intro fits _
        have := fits nofun
        omega
    · rename_i outside
      refine iff_of_false nofun fun fits => outside ?_
      have := fits nofun
      rw [List.length_cons] at this
      omega

theorem getElem?_of_store {values : List α} (stored : store data place values = some after)
    (i : ℕ) : after[i]? =
      if place ≤ i ∧ i < place + values.length then values[i - place]? else data[i]? := by
  induction values generalizing data place with
  | nil =>
    obtain rfl := Option.some.inj stored
    rw [if_neg]
    rintro ⟨lower, upper⟩
    exact absurd upper (Nat.not_lt.mpr lower)
  | cons value rest ih =>
    obtain ⟨inside, stored⟩ := Option.ite_none_right_eq_some.mp stored
    rw [ih stored, List.length_cons]
    rcases Nat.lt_trichotomy i place with before | rfl | behind
    · rw [if_neg (by omega), if_neg (by omega), List.getElem?_set_ne (by omega)]
    · rw [if_neg (by omega), if_pos (by omega), Nat.sub_self, List.getElem?_set_self inside]
      rfl
    · by_cases covered : i < place + 1 + rest.length
      · rw [if_pos (by omega), if_pos (by omega), show i - place = i - (place + 1) + 1 by omega]
        rfl
      · rw [if_neg (by omega), if_neg (by omega), List.getElem?_set_ne (by omega)]

end Hakkun.Machine
