import Hakkun.Model.Core.Integer
import Mathlib.Logic.Function.Basic

/-! # The mutex and its threads

Translated from `hk/os/Mutex.h`. Each thread is at one program point of `lock`, `tryLock` or
`unlock`, and a step is one exclusive access or one supervisor call together with the local
branching up to the next one. A store-exclusive may fail at any time and succeeds only while the
word has not been written since the thread's load-exclusive; the kernel's `ArbitrateLock` and
`ArbitrateUnlock` act on the word and on its queue of waiting threads in one step.
-/

namespace Hakkun.Os

abbrev Handle := U32

def cInvalidHandle : Handle := 0
def cWaitMask : Handle := 1#32 <<< 30

/-- The threads that use a mutex and their kernel handles. -/
structure Threads (T : Type) where
  handle : T → Handle
  injective : Function.Injective handle
  valid (t : T) : handle t ≠ cInvalidHandle
  unmasked (t : T) : handle t &&& ~~~cWaitMask = handle t

/-- What a thread executes next; `locked` is between a successful lock and its unlock. -/
inductive Pc where
  | idle
  | lockLoad
  | lockStore
  | lockStoreWait (value : Handle)
  | lockArbitrate (value : Handle)
  | lockQueued
  | tryLockFirstLoad
  | tryLockLoad
  | tryLockStore
  | locked
  | unlockLoad
  | unlockStore (value : Handle)
  | unlockArbitrate
deriving DecidableEq, Repr

/-- The word, the threads' program points and exclusive monitors, and the kernel's queue. -/
structure State (T : Type) where
  mValue : Handle
  pc : T → Pc
  exclusive : T → Bool
  queue : List T

inductive Action (T : Type) where
  | lock (t : T)
  | tryLock (t : T)
  | unlock (t : T)
  | loadExclusive (t : T)
  | storeExclusive (t : T)
  | storeFails (t : T)
  | arbitrateLock (t : T)
  | arbitrateUnlock (t : T) (next : Option T)
deriving DecidableEq, Repr

/-- `lock` from its load up to the next access, and whether it leaves the monitor set. -/
def lockBranch (currentThread value : Handle) : Pc × Bool :=
  if value = cInvalidHandle then (.lockStore, true)
  else if value &&& ~~~cWaitMask = currentThread then (.locked, false)
  else if value &&& cWaitMask = 0 then (.lockStoreWait value, true)
  else (.lockArbitrate value, false)

def tryLockBranch (value : Handle) : Pc × Bool :=
  if value ≠ cInvalidHandle then (.idle, false) else (.tryLockStore, true)

def unlockBranch (currentThread value : Handle) : Pc × Bool :=
  if value &&& ~~~cWaitMask ≠ currentThread then (.idle, false) else (.unlockStore value, true)

namespace State

variable {T : Type} [DecidableEq T]

def setPc (s : State T) (t : T) (pc : Pc) : State T :=
  { s with pc := Function.update s.pc t pc }

/-- A write of the word, by a thread or by the kernel, clears every monitor. -/
def write (s : State T) (value : Handle) : State T :=
  { s with mValue := value, exclusive := fun _ => false }

/-- A load-exclusive followed by the local branch. -/
def afterLoad (s : State T) (t : T) (next : Pc × Bool) : State T :=
  { s with pc := Function.update s.pc t next.1, exclusive := Function.update s.exclusive t next.2 }

def loadExclusive (threads : Threads T) (s : State T) (t : T) : Option (State T) :=
  match s.pc t with
  | .lockLoad => some (s.afterLoad t (lockBranch (threads.handle t) s.mValue))
  | .tryLockFirstLoad => some (s.afterLoad t (.tryLockLoad, true))
  | .tryLockLoad => some (s.afterLoad t (tryLockBranch s.mValue))
  | .unlockLoad => some (s.afterLoad t (unlockBranch (threads.handle t) s.mValue))
  | _ => none

/-- A store-exclusive that succeeds. -/
def storeExclusive (threads : Threads T) (s : State T) (t : T) : Option (State T) :=
  if s.exclusive t = true then
    match s.pc t with
    | .lockStore | .tryLockStore => some ((s.write (threads.handle t)).setPc t .locked)
    | .lockStoreWait value =>
      some ((s.write (value ||| cWaitMask)).setPc t (.lockArbitrate value))
    | .unlockStore value =>
      some ((s.write cInvalidHandle).setPc t
        (if value &&& cWaitMask ≠ 0 then .unlockArbitrate else .idle))
    | _ => none
  else none

/-- A store-exclusive that fails goes back to the load of its loop. -/
def storeFails (s : State T) (t : T) : Option (State T) :=
  match s.pc t with
  | .lockStore | .lockStoreWait _ => some (s.afterLoad t (.lockLoad, false))
  | .tryLockStore => some (s.afterLoad t (.tryLockLoad, false))
  | .unlockStore _ => some (s.afterLoad t (.unlockLoad, false))
  | _ => none

/-- The kernel queues the thread only if the word is still the owner's with the waiter bit. -/
def arbitrateLock (s : State T) (t : T) : Option (State T) :=
  match s.pc t with
  | .lockArbitrate value =>
    if s.mValue = (value &&& ~~~cWaitMask) ||| cWaitMask then
      some { s.setPc t .lockQueued with queue := s.queue ++ [t] }
    else some (s.setPc t .lockLoad)
  | _ => none

/-- The kernel hands the lock to `next`, one of the queued threads, if there is any. -/
def arbitrateUnlock (threads : Threads T) (s : State T) (t : T) (next : Option T) :
    Option (State T) :=
  if s.pc t = .unlockArbitrate then
    match next with
    | none => if s.queue = [] then some ((s.write cInvalidHandle).setPc t .idle) else none
    | some waiter =>
      if waiter ∈ s.queue ∧ s.pc waiter = .lockQueued then
        let others := s.queue.erase waiter
        let value := threads.handle waiter ||| (if others = [] then 0 else cWaitMask)
        some { ((s.write value).setPc t .idle).setPc waiter .lockLoad with queue := others }
      else none
  else none

end State

variable {T : Type} [DecidableEq T]

/-- One atomic step; a thread locks only when idle and unlocks only what it has locked. -/
def step (threads : Threads T) (s : State T) : Action T → Option (State T)
  | .lock t => if s.pc t = .idle then some (s.setPc t .lockLoad) else none
  | .tryLock t => if s.pc t = .idle then some (s.setPc t .tryLockFirstLoad) else none
  | .unlock t => if s.pc t = .locked then some (s.setPc t .unlockLoad) else none
  | .loadExclusive t => s.loadExclusive threads t
  | .storeExclusive t => s.storeExclusive threads t
  | .storeFails t => s.storeFails t
  | .arbitrateLock t => s.arbitrateLock t
  | .arbitrateUnlock t next => s.arbitrateUnlock threads t next

/-- A new mutex: nobody has called it yet. -/
def init : State T where
  mValue := cInvalidHandle
  pc _ := .idle
  exclusive _ := false
  queue := []

end Hakkun.Os
