import Mathlib.Data.List.Basic

/-! # Insertion into a list

A relation that holds between all elements of a list, in their order, holds of the list with a new
element when it holds between the element and those before and behind it.
-/

namespace Hakkun.Math

variable {α : Type*} {list : List α} {index : ℕ} {value : α}

/-- An insertion by its two parts. -/
theorem insertIdx_eq_append (bound : index ≤ list.length) :
    list.insertIdx index value = list.take index ++ value :: list.drop index := by
  induction list generalizing index with
  | nil =>
    obtain rfl : index = 0 := Nat.le_zero.mp bound
    rfl
  | cons head rest ih =>
    cases index with
    | zero => rfl
    | succ index =>
      rw [List.insertIdx_succ_cons, ih (Nat.le_of_succ_le_succ bound)]
      rfl

theorem pairwise_insert {R : α → α → Prop} (sorted : list.Pairwise R)
    (below : ∀ a ∈ list.take index, R a value) (above : ∀ a ∈ list.drop index, R value a) :
    (list.take index ++ value :: list.drop index).Pairwise R := by
  rw [← List.take_append_drop index list, List.pairwise_append] at sorted
  obtain ⟨first, second, across⟩ := sorted
  rw [List.pairwise_append, List.pairwise_cons]
  refine ⟨first, ⟨above, second⟩, ?_⟩
  intro a before b after
  rcases List.mem_cons.mp after with rfl | after
  · exact below a before
  · exact across a before b after

theorem pairwise_insertIdx {R : α → α → Prop} (sorted : list.Pairwise R)
    (bound : index ≤ list.length) (below : ∀ a ∈ list.take index, R a value)
    (above : ∀ a ∈ list.drop index, R value a) : (list.insertIdx index value).Pairwise R := by
  rw [insertIdx_eq_append bound]
  exact pairwise_insert sorted below above

end Hakkun.Math
