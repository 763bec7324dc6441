import Hakkun.Machine.Core.Run
import Hakkun.Model.Core.Result

/-! # Traces of results

A slot that is used again may still be an ancestor of the very result that is being propagated;
its trace then leads back to itself. As long as no result is propagated into a slot of its own
trace, every trace ends.
-/

namespace Hakkun.DebugRefs

open Machine

/-- Making a result, or propagating the result `value`, is one step. -/
def step (refs : DebugRefs) (label : U32 × ResultDebugReference) : Option DebugRefs :=
  some (refs.makeWithInfo label.1 label.2).2

/-- Counting the parents of every result that carries a reference terminates. -/
def TracesEnd (refs : DebugRefs) : Prop :=
  ∀ ref, ref ≠ 0 → ∃ fuel, (refs.calcNumParents fuel ref).isSome

def parentOf (refs : DebugRefs) (ref : ℕ) : ℕ :=
  if ref = 0 then 0 else (refs.get ref).parentRef

/-- A result is not propagated into a slot of its own trace. -/
def Unlooped (refs : DebugRefs) (label : U32 × ResultDebugReference) : Prop :=
  ∀ n, refs.parentOf^[n] (ResultBase.getDebugRef label.1) ≠ refs.nextRef

/-- Following the parents from a reference ends. -/
inductive Ends (refs : DebugRefs) : ℕ → Prop
  | root : Ends refs 0
  | child {ref : ℕ} : Ends refs (refs.parentOf ref) → Ends refs ref

structure Inv (refs : DebugRefs) : Prop where
  ends : ∀ ref, refs.Ends ref
  positive : 0 < refs.sCurRefIdx

theorem Ends.calcNumParents {refs : DebugRefs} {ref : ℕ} (ends : refs.Ends ref) (positive : 0 < ref) :
    ∃ fuel, (refs.calcNumParents fuel ref).isSome := by
  induction ends with
  | root => omega
  | @child ref _ ih =>
    by_cases last : (refs.get ref).parentRef = 0
    · exact ⟨1, by simp [DebugRefs.calcNumParents, last]⟩
    · have parent : refs.parentOf ref = (refs.get ref).parentRef := if_neg (by omega)
      rw [parent] at ih
      obtain ⟨fuel, counted⟩ := ih (by omega)
      refine ⟨fuel + 1, ?_⟩
      rw [DebugRefs.calcNumParents, if_pos last, Option.isSome_map]
      exact counted

theorem Inv.tracesEnd {refs : DebugRefs} (inv : Inv refs) : refs.TracesEnd :=
  fun ref present => (inv.ends ref).calcNumParents (Nat.pos_of_ne_zero present)

theorem inv_init : Inv init where
  ends ref := by
    have root : init.parentOf ref = 0 := by
      unfold parentOf
      split_ifs <;> rfl
    exact .child (root ▸ .root)
  positive := Nat.one_pos

variable {refs : DebugRefs} {info : ResultDebugReference}

theorem nextRef_pos (positive : 0 < refs.sCurRefIdx) : 0 < refs.nextRef := by
  unfold nextRef
  split_ifs <;> omega

theorem parentOf_allocate_self (positive : 0 < refs.sCurRefIdx) :
    (refs.allocate info).parentOf refs.nextRef = info.parentRef := by
  have := nextRef_pos positive
  simp [parentOf, get, allocate, this.ne']

theorem parentOf_allocate_of_ne (positive : 0 < refs.sCurRefIdx) {ref : ℕ}
    (other : ref ≠ refs.nextRef) : (refs.allocate info).parentOf ref = refs.parentOf ref := by
  have := nextRef_pos positive
  unfold parentOf
  split_ifs with root
  · rfl
  · have index : ref - 1 ≠ refs.nextRef - 1 := by omega
    simp [get, allocate, index]

/-- A trace that does not use the slot is not changed by its reuse. -/
theorem Ends.kept {ref : ℕ} (positive : 0 < refs.sCurRefIdx) (ends : refs.Ends ref)
    (avoids : ∀ n, refs.parentOf^[n] ref ≠ refs.nextRef) : (refs.allocate info).Ends ref := by
  induction ends with
  | root => exact .root
  | @child ref _ ih =>
    apply Ends.child
    have other : ref ≠ refs.nextRef := avoids 0
    rw [parentOf_allocate_of_ne positive other]
    exact ih fun n => avoids (n + 1)

/-- Reusing a slot below a trace that avoids it keeps every trace finite. -/
theorem Inv.allocated (inv : Inv refs)
    (avoids : ∀ n, refs.parentOf^[n] info.parentRef ≠ refs.nextRef) : Inv (refs.allocate info) where
  ends ref := by
    have ends := inv.ends ref
    induction ends with
    | root => exact .root
    | @child ref _ ih =>
      apply Ends.child
      rcases eq_or_ne ref refs.nextRef with rfl | other
      · rw [parentOf_allocate_self inv.positive]
        exact (inv.ends _).kept inv.positive avoids
      · rw [parentOf_allocate_of_ne inv.positive other]
        exact ih
  positive := Nat.succ_pos _

/-- One step keeps every trace finite, if the result is not propagated into its own trace. -/
theorem Inv.step {refs' : DebugRefs} (inv : Inv refs) {label : U32 × ResultDebugReference}
    (unlooped : refs.Unlooped label) (stepped : step refs label = some refs') : Inv refs' := by
  simp only [DebugRefs.step, makeWithInfo, Option.some.injEq] at stepped
  split_ifs at stepped
  · exact stepped ▸ inv
  · exact stepped ▸ inv.allocated unlooped

/-- A new failure, as `HK_UNLESS` makes it. -/
def fresh : U32 × ResultDebugReference := (ResultBase.makeResult 1 1 0, ⟨"a.cpp", "", 1, 1, 0⟩)

/-- The propagation of the first failure, as `HK_TRY` makes it. -/
def propagated : U32 × ResultDebugReference :=
  (ResultBase.makeResult 1 1 1, ⟨"b.cpp", "", 1, 1, 0⟩)

private theorem parentOf_root (refs : DebugRefs) (n : ℕ) : refs.parentOf^[n] 0 = 0 :=
  Function.iterate_fixed rfl n

/-- After `n` new failures the next slot is `n + 1`. -/
private theorem run_fresh (n : ℕ) (bound : n ≤ 1022) :
    ∃ refs, run step init (List.replicate n fresh) = some refs ∧ refs.sCurRefIdx = n + 1 := by
  induction n with
  | zero => exact ⟨init, rfl, rfl⟩
  | succ n ih =>
    obtain ⟨refs, ran, current⟩ := ih (by omega)
    refine ⟨(refs.makeWithInfo fresh.1 fresh.2).2, ?_, ?_⟩
    · rw [List.replicate_succ', run_append, ran]
      rfl
    · have failed : ¬(ResultBase.getModule fresh.1 = 0 ∧
          ResultBase.getModule fresh.1 = ResultBase.getDescription fresh.1) := by decide
      rw [makeWithInfo, if_neg failed]
      change refs.nextRef + 1 = _
      rw [nextRef, if_neg (by rw [cMaxDebugRefs]; omega), current]

/-- The first failure is kept while the slots are used up, and is then propagated into its own
slot. -/
def wrapped : List (U32 × ResultDebugReference) := List.replicate 1022 fresh ++ [propagated]

end Hakkun.DebugRefs
