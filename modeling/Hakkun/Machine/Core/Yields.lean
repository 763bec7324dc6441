import Mathlib.Tactic.Common

/-! # Fallible computations

A computation yields a value exactly when it is accepted; a sequence of computations is accepted
when each of its parts is.
-/

namespace Hakkun.Machine.Core

variable {E A B : Type} {result : Except E A} {accepted accepted' : Prop} {given given' : A → Prop}

/-- Where it is accepted, there is a value, of which something holds; elsewhere an error. -/
def Yields (result : Except E A) (accepted : Prop) (given : A → Prop) : Prop :=
  (accepted → ∃ value, result = .ok value ∧ given value) ∧
    (¬accepted → ∃ error, result = .error error)

namespace Yields

theorem ok {value : A} (holds : given value) : Yields (.ok value : Except E A) True given :=
  ⟨fun _ => ⟨value, rfl, holds⟩, fun refused => absurd trivial refused⟩

theorem error (error : E) (refused : ¬accepted) : Yields (.error error) accepted given :=
  ⟨fun yes => absurd yes refused, fun _ => ⟨error, rfl⟩⟩

theorem ite [Decidable accepted] {value : A} {error : E} (holds : accepted → given value) :
    Yields (if accepted then .ok value else .error error) accepted given :=
  ⟨fun yes => ⟨value, if_pos yes, holds yes⟩, fun no => ⟨error, if_neg no⟩⟩

theorem congr (yields : Yields result accepted given) (same : accepted' ↔ accepted)
    (weaker : ∀ value, accepted → given value → given' value) :
    Yields result accepted' given' := by
  refine ⟨fun yes => ?_, fun no => yields.2 (mt same.mpr no)⟩
  obtain ⟨value, gives, holds⟩ := yields.1 (same.mp yes)
  exact ⟨value, gives, weaker value (same.mp yes) holds⟩

/-- A sequence. What comes next may rely on what is given of the value, and that it was accepted. -/
theorem bind {next : A → Except E B} {given' : B → Prop} (first : Yields result accepted given)
    (later : ∀ value, accepted → given value → Yields (next value) accepted' given') :
    Yields (result >>= next) (accepted ∧ accepted') given' := by
  by_cases yes : accepted
  · obtain ⟨value, rfl, holds⟩ := first.1 yes
    exact (later value yes holds).congr (and_iff_right yes) fun _ _ => id
  · obtain ⟨error, rfl⟩ := first.2 yes
    exact ⟨fun both => absurd both.1 yes, fun _ => ⟨error, rfl⟩⟩

/-- A value that something is made of. -/
theorem map {f : A → B} {given' : B → Prop} (yields : Yields result accepted given)
    (weaker : ∀ value, accepted → given value → given' (f value)) :
    Yields (result >>= fun value => pure (f value)) accepted given' :=
  (yields.bind fun value yes holds => ok (weaker value yes holds)).congr (and_iff_left trivial).symm
    fun _ _ => id

/-- A first part that does not fail. -/
theorem of_ok {next : A → Except E B} {given' : B → Prop} {value : A} (gives : result = .ok value)
    (later : Yields (next value) accepted' given') : Yields (result >>= next) accepted' given' := by
  subst gives
  exact later

end Yields

end Hakkun.Machine.Core
