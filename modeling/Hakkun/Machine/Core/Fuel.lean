import Mathlib.Data.Fintype.Card
import Mathlib.Data.Set.Finite.Lattice
import Mathlib.Logic.Relation
import Mathlib.Order.Filter.AtTopBot.Basic

/-! # Recursion with fuel

A recursion with fuel that only calls itself on what its argument refers to comes to an end, with
enough fuel, when the references of a finite type have no cycle. What a computation gives with
enough fuel is composed step by step, without a bound on the fuel.
-/

namespace Hakkun.Machine.Core

variable {A : Type*} {refers : A → A → Prop} {finishes : ℕ → A → Prop}

theorem wellFounded_of_acyclic [Finite A] (acyclic : ∀ a, ¬ Relation.TransGen refers a a) :
    WellFounded fun b a => refers a b := by
  have transitive : IsTrans A fun b a => Relation.TransGen refers a b :=
    ⟨fun _ _ _ later earlier => earlier.trans later⟩
  have irreflexive : Std.Irrefl fun b a => Relation.TransGen refers a b := ⟨acyclic⟩
  have closure : WellFounded fun b a => Relation.TransGen refers a b :=
    Finite.wellFounded_of_trans_of_irrefl _
  exact Subrelation.wf Relation.TransGen.single closure

/-- Without cycles some amount of fuel, and any larger one, is enough for each argument. -/
theorem exists_fuel_of_acyclic [Finite A] (acyclic : ∀ a, ¬ Relation.TransGen refers a a)
    (step : ∀ fuel a, (∀ b, refers a b → finishes fuel b) → finishes (fuel + 1) a) (a : A) :
    ∃ enough, ∀ fuel ≥ enough, finishes fuel a := by
  induction a using (wellFounded_of_acyclic acyclic).induction with
  | _ a ih =>
    have bound (b : A) : ∃ enough, refers a b → ∀ fuel ≥ enough, finishes fuel b := by
      by_cases referred : refers a b
      · obtain ⟨enough, done⟩ := ih b referred
        exact ⟨enough, fun _ => done⟩
      · exact ⟨0, fun absurd => (referred absurd).elim⟩
    choose enough done using bound
    obtain ⟨largest, above⟩ := (Set.finite_range enough).bddAbove
    refine ⟨largest + 1, fun fuel large => ?_⟩
    obtain ⟨fuel, rfl⟩ := Nat.exists_eq_add_one.mpr (Nat.lt_of_lt_of_le (Nat.succ_pos _) large)
    apply step
    intro b referred
    have small : enough b ≤ largest := above (Set.mem_range_self b)
    exact done b referred fuel (by omega)

/-! ## Results -/

section Results

variable {R S E : Type} {compute compute' : ℕ → R} {result result' : R}

/-- What a computation gives with any large enough amount of fuel. -/
def Ends (compute : ℕ → R) (result : R) : Prop := ∀ᶠ fuel in Filter.atTop, compute fuel = result

theorem Ends.of_forall (always : ∀ fuel, compute fuel = result) : Ends compute result :=
  Filter.Eventually.of_forall always

theorem Ends.congr (same : ∀ fuel, compute fuel = compute' fuel) (ends : Ends compute' result) :
    Ends compute result :=
  ends.mono fun fuel given => (same fuel).trans given

/-- One level of a recursion. -/
theorem Ends.of_succ (ends : Ends (fun fuel => compute (fuel + 1)) result) : Ends compute result := by
  rw [Ends, ← Filter.map_add_atTop_eq_nat 1]
  exact ends

theorem Ends.unique (one : Ends compute result) (two : Ends compute result') : result = result' := by
  obtain ⟨fuel, first, second⟩ := (one.and two).exists
  exact first.symm.trans second

/-- A computation goes on with the value of its first part. -/
theorem Ends.bind {first : ℕ → Except E R} {next : ℕ → R → Except E S} {value : R}
    {last : Except E S} (ends : Ends first (.ok value))
    (later : Ends (fun fuel => next fuel value) last) :
    Ends (fun fuel => first fuel >>= next fuel) last := by
  filter_upwards [ends, later] with fuel given goes
  rw [given]
  exact goes

end Results

end Hakkun.Machine.Core
