import Mathlib.Data.List.Basic
import Mathlib.Data.Option.Basic

/-! # Runs of a step function

A system takes labelled steps; a label that is not enabled has no result. A run is the left fold
of its labels, so it can be evaluated. Invariants are proved for one step and transported along a
whole run, and a condition on single steps restricts the runs for which that is asked.
-/

namespace Hakkun.Machine

variable {σ α : Type*}

/-- The state that a path of labels leads to, if every label is enabled where it is taken. -/
def run (step : σ → α → Option σ) (source : σ) (path : List α) : Option σ :=
  path.foldlM step source

/-- Every step that a path takes from a state meets a condition on its source and label. -/
def RunMeets (step : σ → α → Option σ) (condition : σ → α → Prop) : σ → List α → Prop
  | _, [] => True
  | source, label :: rest =>
    condition source label ∧ ∀ target, step source label = some target →
      RunMeets step condition target rest

variable {step : σ → α → Option σ}

@[simp] theorem run_nil (source : σ) : run step source [] = some source := rfl

theorem run_cons (source : σ) (label : α) (rest : List α) :
    run step source (label :: rest) = (step source label).bind fun next => run step next rest :=
  rfl

theorem run_append (source : σ) (first second : List α) :
    run step source (first ++ second) = (run step source first).bind fun next =>
      run step next second := by
  simp only [run, List.foldlM_append]
  rfl

/-- The induction rule of a run: what every step that meets the condition preserves. -/
theorem run_invariant {condition : σ → α → Prop} {Inv : σ → Prop}
    (preserved : ∀ source label target, Inv source → condition source label →
      step source label = some target → Inv target)
    {source target : σ} {path : List α} (start : Inv source)
    (meets : RunMeets step condition source path) (ran : run step source path = some target) :
    Inv target := by
  induction path generalizing source with
  | nil =>
    obtain rfl : source = target := Option.some.inj ran
    exact start
  | cons label rest ih =>
    rw [run_cons, Option.bind_eq_some_iff] at ran
    obtain ⟨next, stepped, ran⟩ := ran
    exact ih (preserved source label next start meets.1 stepped) (meets.2 next stepped) ran

/-- Two conditions that agree under an invariant of the first restrict runs alike. -/
theorem runMeets_congr {first second : σ → α → Prop} {Inv : σ → Prop}
    (preserved : ∀ source label target, Inv source → first source label →
      step source label = some target → Inv target)
    (same : ∀ source label, Inv source → (first source label ↔ second source label))
    {source : σ} (start : Inv source) (path : List α) :
    RunMeets step first source path ↔ RunMeets step second source path := by
  induction path generalizing source with
  | nil => exact Iff.rfl
  | cons label rest ih =>
    refine (and_congr_right fun meets => ?_).trans (and_congr_left fun _ => same _ _ start)
    refine forall_congr' fun target => imp_congr_right fun stepped => ?_
    exact ih (preserved _ _ _ start meets stepped)

/-- What a condition gives for one step, under an invariant that the step keeps, holds of every step
of a run that meets the condition. -/
theorem runMeets_mono {first second : σ → α → Prop} (Inv : σ → Prop)
    (gives : ∀ source label, Inv source → first source label →
      second source label ∧ ∀ target, step source label = some target → Inv target)
    {source : σ} {path : List α} (start : Inv source) (meets : RunMeets step first source path) :
    RunMeets step second source path := by
  induction path generalizing source with
  | nil => trivial
  | cons label rest ih =>
    obtain ⟨result, kept⟩ := gives source label start meets.1
    exact ⟨result, fun target stepped => ih (kept target stepped) (meets.2 target stepped)⟩

/-- Without a condition every run meets it. -/
theorem runMeets_of_forall {condition : σ → α → Prop}
    (always : ∀ source label, condition source label) (source : σ) (path : List α) :
    RunMeets step condition source path := by
  induction path generalizing source with
  | nil => trivial
  | cons label rest ih => exact ⟨always source label, fun target _ => ih target⟩

instance decidableRunMeets {condition : σ → α → Prop}
    [∀ source label, Decidable (condition source label)] :
    ∀ source path, Decidable (RunMeets step condition source path)
  | _, [] => inferInstanceAs (Decidable True)
  | source, label :: rest =>
    match stepped : step source label with
    | none => decidable_of_iff (condition source label) <| by
        simp only [RunMeets, stepped, reduceCtorEq, false_implies, implies_true, and_true]
    | some next =>
      have : Decidable (RunMeets step condition next rest) := decidableRunMeets next rest
      decidable_of_iff (condition source label ∧ RunMeets step condition next rest) <| by
        simp only [RunMeets, stepped, Option.some.injEq, forall_eq']

end Hakkun.Machine
