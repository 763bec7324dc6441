import Hakkun.Machine.Core.Run
import Mathlib.Logic.Function.Basic

/-! # Guarded one-time initialization

Translated from `hk/os/Libcxx.cpp` and `InitializeGuard::operator+`. The mutex is the mutually
exclusive one: it has an owner, and `lock` waits until there is none. The guard byte is read and
written in steps of their own, and the initializer body is two steps, so that other threads may
act while it runs.
-/

namespace Hakkun.Os.Guard

/-- Where a thread is in `hk_guard_acquire`, the initializer body and `hk_guard_release`. -/
inductive Pc where
  | idle
  /-- The guard byte was read as false; `mutex.lock()` comes next. -/
  | locking
  /-- `hk_guard_acquire` returned true. -/
  | acquired
  | running
  | releasing
  | unlocking
  /-- The caller goes on with an object that it takes to be initialized. -/
  | passed
deriving DecidableEq, Repr

structure State (T : Type) where
  initialized : Bool
  owner : Option T
  pc : T → Pc
  /-- How often the initializer body has been started and has finished. -/
  started : ℕ
  finished : ℕ

inductive Action (T : Type) where
  | check (t : T)
  | lock (t : T)
  | bodyStarts (t : T)
  | bodyEnds (t : T)
  | setInitialized (t : T)
  | unlock (t : T)
deriving DecidableEq, Repr

variable {T : Type} [DecidableEq T]

def State.setPc (s : State T) (t : T) (pc : Pc) : State T :=
  { s with pc := Function.update s.pc t pc }

/-- One atomic step; a caller may come again after it has passed the guard. -/
def step (s : State T) : Action T → Option (State T)
  | .check t =>
    if s.pc t = .idle ∨ s.pc t = .passed then
      some (if s.initialized then s.setPc t .passed else s.setPc t .locking)
    else none
  | .lock t =>
    if s.pc t = .locking ∧ s.owner = none then
      some { s.setPc t .acquired with owner := some t }
    else none
  | .bodyStarts t =>
    if s.pc t = .acquired then some { s.setPc t .running with started := s.started + 1 } else none
  | .bodyEnds t =>
    if s.pc t = .running then
      some { s.setPc t .releasing with finished := s.finished + 1 }
    else none
  | .setInitialized t =>
    if s.pc t = .releasing then some { s.setPc t .unlocking with initialized := true } else none
  | .unlock t =>
    if s.pc t = .unlocking then some { s.setPc t .passed with owner := none } else none

def init : State T where
  initialized := false
  owner := none
  pc _ := .idle
  started := 0
  finished := 0

end Hakkun.Os.Guard
