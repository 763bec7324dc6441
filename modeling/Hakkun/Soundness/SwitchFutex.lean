import Hakkun.Machine.Core.Run
import Hakkun.Model.Rust.SwitchFutex

/-! # Mutual exclusion of the lock of the Rust addon

The word is taken exactly while a call is between its exchange and its store, so at most one closure
runs in any run. A call that failed to take the lock asks the kernel to wait while the word is idle,
with no time to wait: if the lock was released in between, the kernel answers that the time is over
and the call panics.
-/

namespace Hakkun.Rust

open Machine

/-- Between the exchange and the store of a call. -/
def Phase.Holds {R : Type} : Phase R → Prop
  | .closure | .store _ => True
  | .compareExchange | .signal _ | .wait | .returned _ | .panicked => False

namespace SwitchFutex

variable {R : Type}

/-- No two closures run at the same time. -/
def Exclusive (futex : SwitchFutex R) : Prop :=
  ∀ self other method otherMethod, futex.calls self = some (method, .closure) →
    futex.calls other = some (otherMethod, .closure) → self = other

/-- No call was given a bad result. -/
def Calm (futex : SwitchFutex R) : Prop := ∀ self method, futex.calls self ≠ some (method, .panicked)

/-- What a step leaves. -/
def Correct (kernel : Kernel) (futex : SwitchFutex R) (action : Action R) : Prop :=
  ∀ next, futex.step kernel action = some next → next.Exclusive ∧ next.Calm

/-- A call that is about to wait does so while the lock is taken. -/
def Contended (futex : SwitchFutex R) : Action R → Prop
  | .call .. | .closureReturns .. => True
  | .proceed self => ∀ method, futex.calls self = some (method, .wait) → futex.isLocked

/-! ## Who holds the lock -/

/-- The call holds the lock. -/
def Holder (futex : SwitchFutex R) (self : ℕ) : Prop :=
  ∃ method phase, futex.calls self = some (method, phase) ∧ phase.Holds

structure Inv (futex : SwitchFutex R) : Prop where
  free : futex.value = idle → ∀ self, ¬ futex.Holder self
  unique : ∀ self other, futex.Holder self → futex.Holder other → self = other

variable {kernel : Kernel} {futex next : SwitchFutex R} {self other : ℕ} {method : Method}
  {phase : Phase R} {action : Action R}

@[simp] theorem value_put : (futex.put self method phase).value = futex.value := rfl

@[simp] theorem calls_put_self :
    (futex.put self method phase).calls self = some (method, phase) := Function.update_self _ _ _

theorem calls_put_of_ne (different : other ≠ self) :
    (futex.put self method phase).calls other = futex.calls other :=
  Function.update_of_ne different _ _

theorem holder_put_self : (futex.put self method phase).Holder self ↔ phase.Holds := by
  rw [Holder, calls_put_self]
  constructor
  · rintro ⟨_, _, ⟨⟩, holds⟩
    exact holds
  · exact fun holds => ⟨method, phase, rfl, holds⟩

theorem holder_put_of_ne (different : other ≠ self) :
    (futex.put self method phase).Holder other ↔ futex.Holder other := by
  rw [Holder, calls_put_of_ne different, Holder]

namespace Inv

theorem exclusive (inv : futex.Inv) : futex.Exclusive := by
  intro self other method otherMethod first second
  exact inv.unique self other ⟨method, .closure, first, trivial⟩ ⟨otherMethod, .closure, second, trivial⟩

/-- A call goes on without the lock. -/
theorem put (inv : futex.Inv) (method : Method) (leaves : ¬ phase.Holds) :
    (futex.put self method phase).Inv := by
  have kept (other : ℕ) (holds : (futex.put self method phase).Holder other) :
      futex.Holder other := by
    by_cases here : other = self
    · subst here
      exact absurd (holder_put_self.mp holds) leaves
    · exact (holder_put_of_ne here).mp holds
  constructor
  · intro idle other holds
    exact inv.free idle other (kept other holds)
  · intro first second one two
    exact inv.unique first second (kept first one) (kept second two)

/-- The lock is taken if no call holds it. -/
theorem take (nobody : ∀ other, other ≠ self → ¬ futex.Holder other) (word : futex.value ≠ idle)
    (method : Method) (phase : Phase R) : (futex.put self method phase).Inv := by
  have only (other : ℕ) (holds : (futex.put self method phase).Holder other) : other = self := by
    by_contra different
    exact nobody other different ((holder_put_of_ne different).mp holds)
  constructor
  · intro idle
    exact absurd idle word
  · intro first second one two
    exact (only first one).trans (only second two).symm

/-- The lock is released by the call that holds it. -/
theorem release (inv : futex.Inv) (holds : futex.Holder self) (method : Method)
    (leaves : ¬ phase.Holds) : ({ futex with value := idle }.put self method phase).Inv := by
  have nobody (other : ℕ) : ¬ ({ futex with value := idle }.put self method phase).Holder other := by
    intro still
    by_cases here : other = self
    · subst here
      exact leaves (holder_put_self.mp still)
    · have before : futex.Holder other := (holder_put_of_ne here).mp still
      exact here (inv.unique other self before holds)
  constructor
  · intro _ other
    exact nobody other
  · intro first _ one
    exact absurd one (nobody first)

theorem proceed (inv : futex.Inv) (here : futex.calls self = some (method, phase))
    (stepped : futex.proceed kernel self method phase = some next) : next.Inv := by
  cases phase with
  | compareExchange =>
    by_cases free : futex.value = idle
    · obtain rfl := Option.some.inj ((if_pos free).symm.trans stepped)
      refine take (fun other _ => ?_) (show taken ≠ idle by decide) method .closure
      exact inv.free free other
    · replace stepped := (if_neg free).symm.trans stepped
      cases method with
      | tryWithLock =>
        obtain rfl := Option.some.inj stepped
        exact inv.put _ id
      | withLock =>
        obtain rfl := Option.some.inj stepped
        exact inv.put _ id
  | store r =>
    obtain rfl := Option.some.inj stepped
    exact inv.release ⟨method, .store r, here, trivial⟩ method id
  | signal r =>
    rw [SwitchFutex.proceed] at stepped
    split at stepped
    · obtain rfl := Option.some.inj stepped
      exact inv.put method id
    · obtain rfl := Option.some.inj stepped
      exact inv.put method id
  | wait =>
    rw [SwitchFutex.proceed] at stepped
    split at stepped
    · obtain rfl := Option.some.inj stepped
      exact inv.put method id
    · obtain rfl := Option.some.inj stepped
      exact inv.put method id
  | closure => cases stepped
  | returned r => cases stepped
  | panicked => cases stepped

/-- Every step keeps who holds the lock, whatever the kernel answers. -/
theorem step (inv : futex.Inv) (stepped : futex.step kernel action = some next) : next.Inv := by
  cases action with
  | call self method =>
    obtain ⟨-, same⟩ := Option.ite_none_right_eq_some.mp stepped
    obtain rfl := Option.some.inj same
    exact inv.put method id
  | closureReturns self r =>
    rw [SwitchFutex.step] at stepped
    split at stepped
    · rename_i method here
      obtain rfl := Option.some.inj stepped
      have holds : futex.Holder self := ⟨method, .closure, here, trivial⟩
      refine take (fun other different still => ?_) (fun idle => ?_) method (.store r)
      · exact different (inv.unique other self still holds)
      · exact inv.free idle self holds
    · cases stepped
  | proceed self =>
    obtain ⟨⟨method, phase⟩, here, stepped⟩ := Option.bind_eq_some_iff.mp stepped
    exact inv.proceed here stepped

end Inv

theorem inv_new : (new R).Inv where
  free _ _ := by
    rintro ⟨method, phase, none, -⟩
    cases none
  unique _ _ := by
    rintro ⟨method, phase, none, -⟩
    cases none

/-- In every run at most one closure runs. -/
theorem exclusive_of_run {actions : List (Action R)}
    (ran : run (SwitchFutex.step kernel) (new R) actions = some futex) : futex.Exclusive := by
  have always : RunMeets (SwitchFutex.step kernel) (fun _ _ => True) (new R) actions :=
    runMeets_of_forall (fun _ _ => trivial) _ _
  have kept (source : SwitchFutex R) (action : Action R) (target : SwitchFutex R) (inv : source.Inv)
      (_ : True) (stepped : source.step kernel action = some target) : target.Inv :=
    inv.step stepped
  exact (run_invariant kept inv_new always ran).exclusive

/-! ## What the kernel answers -/

theorem calm_put_iff (calm : futex.Calm) :
    (futex.put self method phase).Calm ↔ phase ≠ .panicked := by
  constructor
  · rintro after rfl
    exact after self method calls_put_self
  · intro fine other otherMethod there
    by_cases here : other = self
    · subst here
      rw [calls_put_self] at there
      exact fine (congrArg Prod.snd (Option.some.inj there))
    · rw [calls_put_of_ne here] at there
      exact calm other otherMethod there

/-- A signal is always fine. -/
theorem panicOnBadResult_signal (kernel : Kernel) (word : U32) :
    panicOnBadResult (kernel.signalToAddress word .signal idle 1) = true := by
  rw [kernel.signal]
  rfl

/-- A wait is fine while the word is not the one that is waited for. -/
theorem panicOnBadResult_wait (kernel : Kernel) (futex : SwitchFutex R) :
    panicOnBadResult (kernel.waitForAddress futex.value .waitIfEqual idle 0) = true ↔
      futex.isLocked := by
  by_cases locked : futex.isLocked
  · rw [kernel.wait_of_ne futex.value idle locked]
    exact iff_of_true rfl locked
  · rw [not_not.mp locked, kernel.wait_self]
    exact iff_of_false nofun locked

/-- Only a wait can panic. -/
theorem calm_proceed_iff (calm : futex.Calm)
    (stepped : futex.proceed kernel self method phase = some next) :
    next.Calm ↔ (phase = .wait → futex.isLocked) := by
  cases phase with
  | compareExchange =>
    refine iff_of_true ?_ nofun
    by_cases free : futex.value = idle
    · obtain rfl := Option.some.inj ((if_pos free).symm.trans stepped)
      have kept : ({ futex with value := taken } : SwitchFutex R).Calm := calm
      exact (calm_put_iff kept).mpr nofun
    · replace stepped := (if_neg free).symm.trans stepped
      cases method with
      | tryWithLock =>
        obtain rfl := Option.some.inj stepped
        exact (calm_put_iff calm).mpr nofun
      | withLock =>
        obtain rfl := Option.some.inj stepped
        exact (calm_put_iff calm).mpr nofun
  | store r =>
    refine iff_of_true ?_ nofun
    obtain rfl := Option.some.inj stepped
    have kept : ({ futex with value := idle } : SwitchFutex R).Calm := calm
    exact (calm_put_iff kept).mpr nofun
  | signal r =>
    refine iff_of_true ?_ nofun
    obtain rfl := Option.some.inj ((if_pos (panicOnBadResult_signal kernel _)).symm.trans stepped)
    exact (calm_put_iff calm).mpr nofun
  | wait =>
    have answer := panicOnBadResult_wait kernel futex
    by_cases locked : futex.isLocked
    · obtain rfl := Option.some.inj ((if_pos (answer.mpr locked)).symm.trans stepped)
      exact iff_of_true ((calm_put_iff calm).mpr nofun) fun _ => locked
    · obtain rfl := Option.some.inj ((if_neg fun fine => locked (answer.mp fine)).symm.trans stepped)
      exact iff_of_false (fun after => (calm_put_iff calm).mp after rfl) fun waits => locked (waits rfl)
  | closure => cases stepped
  | returned r => cases stepped
  | panicked => cases stepped

/-- A call that is about to wait can do so. -/
theorem contended_of_not_possible (impossible : futex.step kernel action = none) :
    futex.Contended action := by
  cases action with
  | call self method => trivial
  | closureReturns self r => trivial
  | proceed self =>
    intro method there
    have waits : futex.proceed kernel self method .wait = none := by
      rw [step, there] at impossible
      exact impossible
    rw [proceed] at waits
    split at waits
    · cases waits
    · cases waits

/-- A step leaves one closure and no bad result exactly when it does not wait on an idle lock. -/
theorem correct_iff_contended (inv : futex.Inv) (calm : futex.Calm) (action : Action R) :
    futex.Correct kernel action ↔ futex.Contended action := by
  cases stepped : futex.step kernel action with
  | none =>
    refine iff_of_true (fun next again => ?_) (contended_of_not_possible stepped)
    cases stepped.symm.trans again
  | some next =>
    have only : futex.Correct kernel action ↔ next.Calm := by
      constructor
      · exact fun correct => (correct next stepped).2
      · rintro after _ again
        obtain rfl := Option.some.inj (stepped.symm.trans again)
        exact ⟨(inv.step stepped).exclusive, after⟩
    rw [only]
    cases action with
    | call self method =>
      obtain ⟨-, same⟩ := Option.ite_none_right_eq_some.mp stepped
      obtain rfl := Option.some.inj same
      exact iff_of_true ((calm_put_iff calm).mpr nofun) trivial
    | closureReturns self r =>
      rw [step] at stepped
      split at stepped
      · obtain rfl := Option.some.inj stepped
        exact iff_of_true ((calm_put_iff calm).mpr nofun) trivial
      · cases stepped
    | proceed self =>
      obtain ⟨⟨method, phase⟩, here, stepped⟩ := Option.bind_eq_some_iff.mp stepped
      rw [calm_proceed_iff calm stepped]
      constructor
      · intro fine method' there
        rw [here] at there
        exact fine (congrArg Prod.snd (Option.some.inj there))
      · rintro contended rfl
        exact contended method here

theorem calm_new : (new R).Calm := nofun

/-- From a new lock on no two closures run and no call panics exactly when no call waits while the
lock is idle. -/
theorem runMeets_exclusive_iff (kernel : Kernel) (actions : List (Action R)) :
    RunMeets (SwitchFutex.step kernel) (Correct kernel) (new R) actions ↔
      RunMeets (SwitchFutex.step kernel) Contended (new R) actions := by
  have preserved (futex : SwitchFutex R) (action : Action R) (next : SwitchFutex R)
      (inv : futex.Inv ∧ futex.Calm) (correct : futex.Correct kernel action)
      (stepped : futex.step kernel action = some next) : next.Inv ∧ next.Calm :=
    ⟨inv.1.step stepped, (correct next stepped).2⟩
  refine runMeets_congr preserved (fun futex action inv => ?_) ⟨inv_new, calm_new⟩ actions
  exact correct_iff_contended inv.1 inv.2 action

/-- A kernel with these answers; other arbitrations are not asked for. -/
def horizon : Kernel where
  waitForAddress word _ value _ := if word = value then 0xEA01 else 0xFA01
  signalToAddress _ _ _ _ := 0
  wait_of_ne _ _ different := if_neg different
  wait_self _ := if_pos rfl
  signal _ _ _ _ := rfl

/-- The lock is released between the exchange of another call and its wait. -/
theorem not_runMeets_exclusive : ¬ RunMeets (SwitchFutex.step horizon) (Correct horizon) (new Unit)
    [.call 0 .withLock, .call 1 .withLock, .proceed 0, .proceed 1, .closureReturns 0 (),
      .proceed 0, .proceed 1] := by
  rintro ⟨-, rest⟩
  obtain ⟨-, rest⟩ := rest _ rfl
  obtain ⟨-, rest⟩ := rest _ rfl
  obtain ⟨-, rest⟩ := rest _ rfl
  obtain ⟨-, rest⟩ := rest _ rfl
  obtain ⟨-, rest⟩ := rest _ rfl
  obtain ⟨correct, -⟩ := rest _ rfl
  exact (correct _ rfl).2 1 .withLock rfl

end SwitchFutex

end Hakkun.Rust
