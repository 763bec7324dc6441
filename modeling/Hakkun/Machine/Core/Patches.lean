import Mathlib

/-! # Patches over a base

Patches are put over a map at places that are apart from each other and are taken off again in any
order. At each time the map has the patches that are on it and is what it was everywhere else, so
without patches it is the base again.
-/

namespace Hakkun.Machine

variable {ι A V : Type*}

/-- Places of a map and what is put there. -/
structure Patch (A V : Type*) where
  cells : Set A
  value : A → V

/-- A map after the patch is put over it. -/
structure Patch.Puts (patch : Patch A V) (map next : A → V) : Prop where
  inside : ∀ a ∈ patch.cells, next a = patch.value a
  outside : ∀ a ∉ patch.cells, next a = map a

/-- A map that is a base with patches over it. -/
structure Patched (base : A → V) (patches : ι → Option (Patch A V)) (map : A → V) : Prop where
  inside : ∀ i patch, patches i = some patch → ∀ a ∈ patch.cells, map a = patch.value a
  outside : ∀ a, (∀ i patch, patches i = some patch → a ∉ patch.cells) → map a = base a
  apart : ∀ i j first second, i ≠ j → patches i = some first → patches j = some second →
    Disjoint first.cells second.cells

namespace Patched

variable {base map next : A → V} {patches : ι → Option (Patch A V)} {i : ι} {patch : Patch A V}

theorem bare (none : ∀ i, patches i = none) : Patched base patches base where
  inside i _ found := by rw [none i] at found; cases found
  outside _ _ := rfl
  apart i _ _ _ _ found := by rw [none i] at found; cases found

theorem eq_base (patched : Patched base patches map) (none : ∀ i, patches i = none) :
    map = base := by
  funext a
  apply patched.outside a
  intro i patch found
  rw [none i] at found
  cases found

/-- Where a patch fits the map is still the base. -/
theorem eq_of_free (patched : Patched base patches map) (absent : patches i = none)
    (free : ∀ j other, j ≠ i → patches j = some other → Disjoint patch.cells other.cells) {a : A}
    (inside : a ∈ patch.cells) : map a = base a := by
  apply patched.outside
  intro j other found covered
  rcases eq_or_ne j i with rfl | different
  · rw [absent] at found
    cases found
  · exact Set.disjoint_left.mp (free j other different found) inside covered

variable [DecidableEq ι]

/-- A patch is put where no other one is. -/
theorem put (patched : Patched base patches map) (absent : patches i = none)
    (free : ∀ j other, j ≠ i → patches j = some other → Disjoint patch.cells other.cells)
    (puts : patch.Puts map next) :
    Patched base (Function.update patches i (some patch)) next where
  inside j other found a covered := by
    rcases eq_or_ne j i with rfl | different
    · rw [Function.update_self] at found
      cases found
      exact puts.inside a covered
    · rw [Function.update_of_ne different] at found
      have apart := Set.disjoint_right.mp (free j other different found) covered
      rw [puts.outside a apart, patched.inside j other found a covered]
  outside a clear := by
    have missed : a ∉ patch.cells := clear i patch (Function.update_self ..)
    rw [puts.outside a missed]
    apply patched.outside
    intro j other found
    rcases eq_or_ne j i with rfl | different
    · rw [absent] at found
      cases found
    · apply clear j
      rwa [Function.update_of_ne different]
  apart j k first second different foundFirst foundSecond := by
    rcases eq_or_ne j i with rfl | other
    · rw [Function.update_self] at foundFirst
      rw [Function.update_of_ne different.symm] at foundSecond
      cases foundFirst
      exact free k second different.symm foundSecond
    rw [Function.update_of_ne other] at foundFirst
    rcases eq_or_ne k i with rfl | another
    · rw [Function.update_self] at foundSecond
      cases foundSecond
      exact (free j first other foundFirst).symm
    · rw [Function.update_of_ne another] at foundSecond
      exact patched.apart j k first second different foundFirst foundSecond

/-- A patch is taken off when the base is put back in its place. -/
theorem takeOff (patched : Patched base patches map) (present : patches i = some patch)
    (puts : Patch.Puts ⟨patch.cells, base⟩ map next) :
    Patched base (Function.update patches i none) next where
  inside j other found a covered := by
    rcases eq_or_ne j i with rfl | different
    · rw [Function.update_self] at found
      cases found
    · rw [Function.update_of_ne different] at found
      have apart := patched.apart j i other patch different found present
      have missed := Set.disjoint_left.mp apart covered
      rw [puts.outside a missed, patched.inside j other found a covered]
  outside a clear := by
    rcases Classical.em (a ∈ patch.cells) with covered | missed
    · exact puts.inside a covered
    · rw [puts.outside a missed]
      apply patched.outside
      intro j other found
      rcases eq_or_ne j i with rfl | different
      · rw [present] at found
        cases found
        exact missed
      · apply clear j
        rwa [Function.update_of_ne different]
  apart j k first second different foundFirst foundSecond := by
    have kept {l : ι} {other : Patch A V}
        (found : Function.update patches i none l = some other) : patches l = some other := by
      rcases eq_or_ne l i with rfl | apart
      · rw [Function.update_self] at found
        cases found
      · rwa [Function.update_of_ne apart] at found
    exact patched.apart j k first second different (kept foundFirst) (kept foundSecond)

end Patched

end Hakkun.Machine
