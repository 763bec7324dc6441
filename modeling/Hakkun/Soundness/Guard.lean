import Hakkun.Model.Os.Guard
import Mathlib.Data.Fintype.Basic

/-! # One-time initialization

`hk_guard_acquire` does not look at the guard byte again once it has the lock. A thread that waited
for the lock while another one initialized the object initializes it a second time. In every run in
which the lock is only taken while the byte is still false, the body is started at most once, and
whoever has passed the guard finds it finished.
-/

namespace Hakkun.Os.Guard

open Machine

variable {T : Type}

/-- The body runs at most once, and exactly once before anyone passes the guard. -/
def OneTime (s : State T) : Prop :=
  s.started ≤ 1 ∧ ∀ t, s.pc t = .passed → s.started = 1 ∧ s.finished = 1

/-- The lock is not taken after the object has been initialized. -/
def Fresh (s : State T) : Action T → Prop
  | .lock _ => s.initialized = false
  | _ => True

instance (s : State T) : ∀ action, Decidable (Fresh s action)
  | .lock _ => inferInstanceAs (Decidable (s.initialized = false))
  | .check _ | .bodyStarts _ | .bodyEnds _ | .setInitialized _ | .unlock _ =>
    inferInstanceAs (Decidable True)

/-- The program points at which a thread owns the mutex. -/
def Pc.Owns : Pc → Prop
  | .acquired | .running | .releasing | .unlocking => True
  | _ => False

/-- What the owner's program point says about the guard byte and the body. -/
def Pc.Phase (initialized : Bool) (started finished : ℕ) : Pc → Prop
  | .acquired => initialized = false ∧ started = 0 ∧ finished = 0
  | .running => initialized = false ∧ started = 1 ∧ finished = 0
  | .releasing => initialized = false ∧ started = 1 ∧ finished = 1
  | .unlocking => initialized = true
  | _ => True

structure Inv (s : State T) : Prop where
  owner : ∀ t, (s.pc t).Owns ↔ s.owner = some t
  phase : ∀ t, (s.pc t).Phase s.initialized s.started s.finished
  free : s.owner = none → s.initialized = false → s.started = 0 ∧ s.finished = 0
  done : s.initialized = true → s.started = 1 ∧ s.finished = 1
  passed : ∀ t, s.pc t = .passed → s.initialized = true

variable {s s' : State T}

theorem Inv.oneTime (inv : Inv s) : OneTime s := by
  refine ⟨?_, fun t here => inv.done (inv.passed t here)⟩
  cases byte : s.initialized with
  | true => exact (inv.done byte).1.le
  | false =>
    cases holder : s.owner with
    | none => simp [inv.free holder byte]
    | some t =>
      have owns := (inv.owner t).mpr holder
      have phase := inv.phase t
      cases point : s.pc t with
      | acquired | running | releasing =>
        simp only [point, Pc.Phase] at phase
        omega
      | unlocking => simp [point, Pc.Phase, byte] at phase
      | _ => simp [point, Pc.Owns] at owns

theorem inv_init : Inv (init : State T) where
  owner _ := ⟨False.elim, nofun⟩
  phase _ := trivial
  free _ _ := ⟨rfl, rfl⟩
  done := nofun
  passed _ := nofun

variable [DecidableEq T]

/-- A thread outside the lock moves between program points outside the lock. -/
theorem Inv.moved (inv : Inv s) (t : T) {pc : Pc} (outside : ¬(s.pc t).Owns) (stays : ¬pc.Owns)
    (passes : pc = .passed → s.initialized = true) : Inv (s.setPc t pc) where
  owner u := by
    rcases eq_or_ne u t with rfl | other
    · simpa [State.setPc, stays, outside] using inv.owner u
    · simpa [State.setPc, other] using inv.owner u
  phase u := by
    rcases eq_or_ne u t with rfl | other
    · cases pc <;> first | exact absurd trivial stays | simp [State.setPc, Pc.Phase]
    · simpa [State.setPc, other] using inv.phase u
  free := inv.free
  done := inv.done
  passed u := by
    rcases eq_or_ne u t with rfl | other
    · simpa [State.setPc] using passes
    · simpa [State.setPc, other] using inv.passed u

/-- A step of the only thread that may own the lock, before and after it. -/
theorem Inv.changed (inv : Inv s) (t : T) (pc : Pc) (others : ∀ u, u ≠ t → ¬(s.pc u).Owns)
    (points : s'.pc = Function.update s.pc t pc)
    (holder : pc.Owns ∧ s'.owner = some t ∨ ¬pc.Owns ∧ s'.owner = none)
    (kept : s.initialized = true → s'.initialized = true)
    (phase : pc.Phase s'.initialized s'.started s'.finished)
    (free : s'.owner = none → s'.initialized = true)
    (done : s'.initialized = true → s'.started = 1 ∧ s'.finished = 1)
    (passes : pc = .passed → s'.initialized = true) : Inv s' where
  owner u := by
    rcases eq_or_ne u t with rfl | other
    · rw [points, Function.update_self]
      rcases holder with ⟨owns, owner⟩ | ⟨leaves, owner⟩ <;> simp [*]
    · rw [points, Function.update_of_ne other]
      rcases holder with ⟨-, owner⟩ | ⟨-, owner⟩ <;> simp [owner, others u other, other.symm]
  phase u := by
    rcases eq_or_ne u t with rfl | other
    · rwa [points, Function.update_self]
    · have outside := others u other
      rw [points, Function.update_of_ne other]
      cases here : s.pc u <;> first | trivial | simp [here, Pc.Owns] at outside
  free unowned byte := by
    rw [free unowned] at byte
    cases byte
  done := done
  passed u := by
    rcases eq_or_ne u t with rfl | other
    · rw [points, Function.update_self]
      exact passes
    · rw [points, Function.update_of_ne other]
      exact fun here => kept (inv.passed u here)

omit [DecidableEq T] in
/-- Nobody but the owner is at a program point of the owner. -/
theorem Inv.others (inv : Inv s) {t : T} (owns : (s.pc t).Owns) (u : T) (other : u ≠ t) :
    ¬(s.pc u).Owns := by
  rw [inv.owner u, (inv.owner t).mp owns]
  exact fun same => other (Option.some.inj same).symm

/-- One atomic step keeps the invariant, if it does not take the lock of an initialized object. -/
theorem Inv.step (inv : Inv s) {action : Action T} (fresh : Fresh s action)
    (stepped : step s action = some s') : Inv s' := by
  cases action with
  | check t =>
    simp only [Guard.step, Option.ite_none_right_eq_some, Option.some.injEq] at stepped
    obtain ⟨point, rfl⟩ := stepped
    have outside : ¬(s.pc t).Owns := by rcases point with point | point <;> simp [point, Pc.Owns]
    split_ifs with byte
    · exact inv.moved t outside nofun (fun _ => byte)
    · exact inv.moved t outside nofun nofun
  | lock t =>
    simp only [Guard.step, Option.ite_none_right_eq_some, Option.some.injEq] at stepped
    obtain ⟨⟨-, unowned⟩, rfl⟩ := stepped
    have byte : s.initialized = false := fresh
    have others : ∀ u, u ≠ t → ¬(s.pc u).Owns := by
      intro u _
      rw [inv.owner u, unowned]
      exact nofun
    exact inv.changed t .acquired others rfl (.inl ⟨trivial, rfl⟩) id
      ⟨byte, inv.free unowned byte⟩ nofun (fun set => inv.done set) nofun
  | bodyStarts t =>
    simp only [Guard.step, Option.ite_none_right_eq_some, Option.some.injEq] at stepped
    obtain ⟨point, rfl⟩ := stepped
    have owns : (s.pc t).Owns := by rw [point]; trivial
    have owner := (inv.owner t).mp owns
    have phase := inv.phase t
    simp only [point, Pc.Phase] at phase
    exact inv.changed t .running (inv.others owns) rfl (.inl ⟨trivial, owner⟩) id
      (by simp [Pc.Phase, State.setPc, phase]) (by simp [State.setPc, owner])
      (by simp [State.setPc, phase]) nofun
  | bodyEnds t =>
    simp only [Guard.step, Option.ite_none_right_eq_some, Option.some.injEq] at stepped
    obtain ⟨point, rfl⟩ := stepped
    have owns : (s.pc t).Owns := by rw [point]; trivial
    have owner := (inv.owner t).mp owns
    have phase := inv.phase t
    simp only [point, Pc.Phase] at phase
    exact inv.changed t .releasing (inv.others owns) rfl (.inl ⟨trivial, owner⟩) id
      (by simp [Pc.Phase, State.setPc, phase]) (by simp [State.setPc, owner])
      (by simp [State.setPc, phase]) nofun
  | setInitialized t =>
    simp only [Guard.step, Option.ite_none_right_eq_some, Option.some.injEq] at stepped
    obtain ⟨point, rfl⟩ := stepped
    have owns : (s.pc t).Owns := by rw [point]; trivial
    have owner := (inv.owner t).mp owns
    have phase := inv.phase t
    simp only [point, Pc.Phase] at phase
    exact inv.changed t .unlocking (inv.others owns) rfl (.inl ⟨trivial, owner⟩) (fun _ => rfl) rfl
      (fun _ => rfl) (fun _ => phase.2) nofun
  | unlock t =>
    simp only [Guard.step, Option.ite_none_right_eq_some, Option.some.injEq] at stepped
    obtain ⟨point, rfl⟩ := stepped
    have owns : (s.pc t).Owns := by rw [point]; trivial
    have byte : s.initialized = true := by
      have phase := inv.phase t
      rwa [point] at phase
    exact inv.changed t .passed (inv.others owns) rfl (.inr ⟨nofun, rfl⟩) id trivial
      (fun _ => byte) inv.done (fun _ => byte)

/-- In every run that takes the lock of no initialized object, the body runs exactly once. -/
theorem oneTime_of_fresh {path : List (Action T)} {s : State T}
    (fresh : RunMeets step Fresh init path) (ran : run step init path = some s) : OneTime s :=
  (run_invariant (fun _ _ _ inv fresh stepped => inv.step fresh stepped) inv_init fresh
    ran).oneTime

/-- One thread initializes the object, the next one finds it initialized. -/
def initializeOnce : List (Action (Fin 2)) :=
  [.check 0, .lock 0, .bodyStarts 0, .bodyEnds 0, .setInitialized 0, .unlock 0, .check 1]

theorem oneTime_initializeOnce :
    ∃ s, run step init initializeOnce = some s ∧ OneTime s := by
  have ran : (run step init initializeOnce).isSome := by decide
  obtain ⟨s, ran⟩ := Option.isSome_iff_exists.mp ran
  exact ⟨s, ran, oneTime_of_fresh (by decide) ran⟩

/-- Both threads read the guard byte before either of them has the lock. -/
def initializeTwice : List (Action (Fin 2)) :=
  [.check 0, .check 1, .lock 0, .bodyStarts 0, .bodyEnds 0, .setInitialized 0, .unlock 0, .lock 1,
    .bodyStarts 1]

/-- The body runs again for a thread that waited for the lock. -/
theorem initializeTwice_not_oneTime :
    ¬∀ (path : List (Action (Fin 2))) (s : State (Fin 2)),
      run step init path = some s → OneTime s := by
  intro once
  have ran : (run step init initializeTwice).map (·.started) = some 2 := by decide
  obtain ⟨s, ran, twice⟩ := Option.map_eq_some_iff.mp ran
  have bound := (once initializeTwice s ran).1
  omega

end Hakkun.Os.Guard
