import Hakkun.Machine.Core.Run

/-! # Calls that are audited by a ledger

A call of a program exchanges events with its environment and leaves a state, or stops. A ledger
says which events are right at which time, what the environment can give, and when everything that
it holds is accounted for by the state. A call is correct when it is right in all of its events.
-/

namespace Hakkun.Machine

/-- A program and the ledger that its calls are audited by. -/
structure Audit (σ α ε Λ : Type*) where
  /-- The events of a call, and the state after it unless it stops. -/
  perform : σ → α → Option (List ε × Option σ)
  /-- The ledger after an event that is right. -/
  record : Λ → ε → Option Λ
  /-- What the environment can give. -/
  CanGive : Λ → ε → Prop
  decidableCanGive : ∀ ledger, DecidablePred (CanGive ledger)
  Accounted : σ → Λ → Prop

namespace Audit

variable {σ α ε Λ : Type*} (audit : Audit σ α ε Λ)

instance (ledger : Λ) : DecidablePred (audit.CanGive ledger) := audit.decidableCanGive ledger

def recordAll (ledger : Λ) (events : List ε) : Option Λ := events.foldlM audit.record ledger

/-- A call on what the environment can give. -/
def conduct (state : σ × Λ) (call : α) : Option (List ε × Option σ) :=
  (audit.perform state.1 call).bind fun done =>
    if ∀ event ∈ done.1, audit.CanGive state.2 event then some done else none

def step (state : σ × Λ) (call : α) : Option (σ × Λ) :=
  (audit.conduct state call).bind fun done => (audit.recordAll state.2 done.1).bind fun ledger =>
    done.2.map fun next => (next, ledger)

/-- Events are right, and unless the call stops the ledger is accounted for after it. -/
def Shows (ledger : Λ) (events : List ε) (next : Option σ) : Prop :=
  ∃ after, audit.recordAll ledger events = some after ∧
    ∀ state, next = some state → audit.Accounted state after

/-- A call that is possible is right. -/
def Correct (state : σ × Λ) (call : α) : Prop :=
  ∀ events next, audit.conduct state call = some (events, next) → audit.Shows state.2 events next

variable {audit} {state target : σ × Λ} {call : α}

@[simp] theorem recordAll_nil (ledger : Λ) : audit.recordAll ledger [] = some ledger := rfl

@[simp] theorem recordAll_cons (ledger : Λ) (event : ε) (rest : List ε) :
    audit.recordAll ledger (event :: rest) =
      (audit.record ledger event).bind fun next => audit.recordAll next rest := rfl

theorem recordAll_append (ledger : Λ) (first second : List ε) :
    audit.recordAll ledger (first ++ second) =
      (audit.recordAll ledger first).bind fun next => audit.recordAll next second := by
  induction first generalizing ledger with
  | nil => rfl
  | cons event rest ih =>
    rw [List.cons_append, recordAll_cons, recordAll_cons, Option.bind_assoc]
    exact congrArg _ (funext fun next => ih next)

/-- Recording many events of one shape, each of which is right after the ones before it. -/
theorem recordAll_range_map {event : ℕ → ε} {ledgers : ℕ → Λ} {amount : ℕ}
    (right : ∀ i < amount, audit.record (ledgers i) (event i) = some (ledgers (i + 1))) :
    audit.recordAll (ledgers 0) ((List.range amount).map event) = some (ledgers amount) := by
  induction amount with
  | zero => rfl
  | succ amount ih =>
    rw [List.range_succ, List.map_append, recordAll_append,
      ih fun i bound => right i (Nat.lt_succ_of_lt bound), Option.bind_some, List.map_singleton,
      recordAll_cons, right amount (Nat.lt_succ_self amount)]
    rfl

theorem shows_nil {after : σ} {ledger : Λ} (accounted : audit.Accounted after ledger) :
    audit.Shows ledger [] (some after) :=
  ⟨ledger, rfl, fun _ same => Option.some.inj same ▸ accounted⟩

/-- A call is judged by what it performs, if it is possible. -/
theorem correct_iff_of_perform {needs : Prop}
    (same : ∀ events next, audit.perform state.1 call = some (events, next) →
      (∀ event ∈ events, audit.CanGive state.2 event) →
        (audit.Shows state.2 events next ↔ needs)) :
    audit.Correct state call ↔ ((audit.conduct state call).isSome = true → needs) := by
  cases conducted : audit.conduct state call with
  | none =>
    refine iff_of_true (fun _ _ again => ?_) nofun
    cases conducted.symm.trans again
  | some done =>
    obtain ⟨⟨events, next⟩, performed, possible⟩ := Option.bind_eq_some_iff.mp conducted
    obtain ⟨gives, possible⟩ := Option.ite_none_right_eq_some.mp possible
    obtain rfl := Option.some.inj possible
    have shows := same events next performed gives
    constructor
    · intro correct _
      exact shows.mp (correct events next conducted)
    · intro needed _ _ again
      obtain ⟨rfl, rfl⟩ := Prod.mk.inj (Option.some.inj (conducted.symm.trans again))
      exact shows.mpr (needed rfl)

/-- What a step that does not stop performed and recorded. -/
theorem exists_of_step (stepped : audit.step state call = some target) : ∃ events,
    audit.conduct state call = some (events, some target.1) ∧
    audit.perform state.1 call = some (events, some target.1) ∧
    (∀ event ∈ events, audit.CanGive state.2 event) ∧
    audit.recordAll state.2 events = some target.2 := by
  obtain ⟨⟨events, next⟩, conducted, rest⟩ := Option.bind_eq_some_iff.mp stepped
  obtain ⟨ledger, recorded, made⟩ := Option.bind_eq_some_iff.mp rest
  obtain ⟨after, rfl, rfl⟩ := Option.map_eq_some_iff.mp made
  obtain ⟨done, performed, possible⟩ := Option.bind_eq_some_iff.mp conducted
  obtain ⟨gives, same⟩ := Option.ite_none_right_eq_some.mp possible
  obtain rfl := Option.some.inj same
  exact ⟨events, conducted, performed, gives, recorded⟩

theorem Correct.accounted (correct : audit.Correct state call)
    (stepped : audit.step state call = some target) : audit.Accounted target.1 target.2 := by
  obtain ⟨events, conducted, -, -, recorded⟩ := exists_of_step stepped
  obtain ⟨after, again, accounted⟩ := correct _ _ conducted
  obtain rfl := Option.some.inj (again.symm.trans recorded)
  exact accounted _ rfl

/-- From a state that is accounted for on, all calls are correct exactly when all of them have what
they need, if that keeps an invariant. -/
theorem runMeets_correct_iff_needs {Needs : σ × Λ → α → Prop} (Inv : σ × Λ → Prop)
    (same : ∀ state call, audit.Accounted state.1 state.2 → Inv state →
      (audit.Correct state call ↔ ((audit.conduct state call).isSome = true → Needs state call)))
    (kept : ∀ state call target, Inv state → Needs state call →
      audit.step state call = some target → Inv target)
    (accounted : audit.Accounted state.1 state.2) (start : Inv state) (calls : List α) :
    RunMeets audit.step audit.Correct state calls ↔
      RunMeets audit.step (fun state call => (audit.conduct state call).isSome = true →
        Needs state call) state calls := by
  have preserved (source : σ × Λ) (call : α) (target : σ × Λ)
      (inv : audit.Accounted source.1 source.2 ∧ Inv source) (correct : audit.Correct source call)
      (stepped : audit.step source call = some target) :
      audit.Accounted target.1 target.2 ∧ Inv target := by
    obtain ⟨events, conducted, -⟩ := exists_of_step stepped
    have needed := (same source call inv.1 inv.2).mp correct (by rw [conducted]; rfl)
    exact ⟨correct.accounted stepped, kept source call target inv.2 needed stepped⟩
  exact runMeets_congr preserved (fun source call inv => same source call inv.1 inv.2)
    ⟨accounted, start⟩ calls

end Audit

end Hakkun.Machine
