import Mathlib.Data.Set.Basic
import Mathlib.Data.List.Pairwise

/-! # Updates of a map at places that are apart

An update changes some cells of a map, in a way that depends on these cells alone. Updates of cells
that are apart from each other do not see each other, in any order: each of them leaves in its cells
what it makes of the first map, and all other cells keep their values.
-/

namespace Hakkun.Machine

variable {A V : Type*}

structure Update (A V : Type*) where
  cells : Set A
  run : (A → V) → A → V
  outside : ∀ map, ∀ a ∉ cells, run map a = map a
  inside : ∀ map map', (∀ a ∈ cells, map a = map' a) → ∀ a ∈ cells, run map a = run map' a

namespace Update

/-- The updates have no cell in common. -/
def Apart (first second : Update A V) : Prop := ∀ a ∈ first.cells, a ∉ second.cells

theorem Apart.symm {first second : Update A V} (apart : Apart first second) :
    Apart second first :=
  fun a there here => apart a here there

/-- All updates in their order. -/
def runAll (updates : List (Update A V)) (map : A → V) : A → V :=
  updates.foldl (fun map update => update.run map) map

theorem runAll_append (updates others : List (Update A V)) (map : A → V) :
    runAll (updates ++ others) map = runAll others (runAll updates map) := List.foldl_append

theorem runAll_flatMap {B : Type*} (given : List B) (updates : B → List (Update A V))
    (map : A → V) : runAll (given.flatMap updates) map =
      given.foldl (fun map b => runAll (updates b) map) map := List.foldl_flatMap

theorem runAll_of_outside {updates : List (Update A V)} {map : A → V} {a : A}
    (outside : ∀ update ∈ updates, a ∉ update.cells) : runAll updates map a = map a := by
  induction updates generalizing map with
  | nil => rfl
  | cons update rest ih =>
    have later : runAll rest (update.run map) a = update.run map a := ih fun other member =>
      outside other (List.mem_cons_of_mem _ member)
    exact later.trans (update.outside map a (outside update (List.mem_cons_self ..)))

theorem runAll_of_mem {updates : List (Update A V)} (apart : updates.Pairwise Apart)
    {map : A → V} {update : Update A V} (member : update ∈ updates) {a : A}
    (inside : a ∈ update.cells) : runAll updates map a = update.run map a := by
  induction updates generalizing map with
  | nil => cases member
  | cons head rest ih =>
    obtain ⟨first, apart⟩ := List.pairwise_cons.mp apart
    rcases List.mem_cons.mp member with rfl | later
    · exact runAll_of_outside fun other there => first other there a inside
    · refine (ih apart later).trans (update.inside _ _ (fun b here => ?_) a inside)
      exact head.outside map b ((first update later).symm b here)

/-- A loop over a list whose elements are updates or do nothing. -/
theorem foldl_eq_runAll {B : Type*} (given : List B) (chosen : B → Bool) (update : B → Update A V)
    (body : (A → V) → B → A → V)
    (step : ∀ b ∈ given, ∀ map, body map b = if chosen b then (update b).run map else map)
    (map : A → V) : given.foldl body map = runAll ((given.filter chosen).map update) map := by
  induction given generalizing map with
  | nil => rfl
  | cons b rest ih =>
    have rest : rest.foldl body (body map b) =
        runAll ((rest.filter chosen).map update) (body map b) :=
      ih (fun other member => step other (List.mem_cons_of_mem _ member)) _
    rw [List.foldl_cons, rest, step b List.mem_cons_self]
    cases use : chosen b with
    | true =>
      rw [List.filter_cons_of_pos use]
      rfl
    | false => rw [List.filter_cons_of_neg (by simp [use]), if_neg (by simp)]

end Update

end Hakkun.Machine
