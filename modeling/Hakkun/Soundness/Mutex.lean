import Hakkun.Machine.Core.Run
import Hakkun.Model.Os.Mutex
import Mathlib.Data.Fintype.Basic

/-! # Mutual exclusion of the mutex

`unlock` clears the word before it asks the kernel to hand the lock over, and the kernel then
writes the word whatever it holds. A thread that takes the lock between the two is joined by the
waiter that the kernel wakes. In every run in which no thread takes the lock there, the word names
the owner from the successful lock to the releasing store, and at most one thread is inside.
-/

namespace Hakkun.Os

open Machine

variable {T : Type}

/-- At most one thread is between a successful lock and its unlock. -/
def MutuallyExclusive (s : State T) : Prop :=
  ∀ t t', s.pc t = .locked → s.pc t' = .locked → t = t'

/-- No lock is taken while an unlocking thread has cleared the word and not yet called the
kernel. -/
def Undisturbed (s : State T) : Action T → Prop
  | .storeExclusive t => s.pc t = .lockStore ∨ s.pc t = .tryLockStore →
      ∀ t', s.pc t' ≠ .unlockArbitrate
  | _ => True

instance [Fintype T] (s : State T) : ∀ action, Decidable (Undisturbed s action)
  | .storeExclusive t => inferInstanceAs (Decidable (s.pc t = .lockStore ∨
      s.pc t = .tryLockStore → ∀ t', s.pc t' ≠ .unlockArbitrate))
  | .lock _ | .tryLock _ | .unlock _ | .loadExclusive _ | .storeFails _ | .arbitrateLock _
  | .arbitrateUnlock _ _ => inferInstanceAs (Decidable True)

/-- The program points at which the word names the thread. -/
def Pc.Holds : Pc → Prop
  | .locked | .unlockLoad | .unlockStore _ => True
  | _ => False

/-- What a thread's program point and monitor say about the word. -/
def Promise (threads : Threads T) (word : Handle) (exclusive : Bool) (t : T) : Pc → Prop
  | .locked | .unlockLoad => word &&& ~~~cWaitMask = threads.handle t
  | .unlockStore value => word &&& ~~~cWaitMask = threads.handle t ∧
      value &&& ~~~cWaitMask = threads.handle t ∧ (exclusive = true → word = value)
  | .lockStore | .tryLockStore => exclusive = true → word = cInvalidHandle
  | .lockStoreWait value => value ≠ cInvalidHandle ∧ (exclusive = true → word = value)
  | .unlockArbitrate => word = cInvalidHandle
  | _ => True

structure Inv (threads : Threads T) (s : State T) : Prop where
  promise : ∀ t, Promise threads s.mValue (s.exclusive t) t (s.pc t)
  unique : ∀ t t', s.pc t = .unlockArbitrate → s.pc t' = .unlockArbitrate → t = t'

variable {threads : Threads T} {s s' : State T}

theorem Inv.owner (inv : Inv threads s) {t : T} (holds : (s.pc t).Holds) :
    s.mValue &&& ~~~cWaitMask = threads.handle t := by
  have promise := inv.promise t
  generalize s.pc t = pc at holds promise
  cases pc with
  | locked | unlockLoad => exact promise
  | unlockStore value => exact promise.1
  | _ => exact holds.elim

theorem Inv.cleared (inv : Inv threads s) {t : T} (releasing : s.pc t = .unlockArbitrate) :
    s.mValue = cInvalidHandle := by
  have promise := inv.promise t
  rwa [releasing] at promise

theorem Inv.exclusive (inv : Inv threads s) : MutuallyExclusive s := by
  intro t t' here there
  apply threads.injective
  rw [← inv.owner (t := t) (by rw [here]; trivial), ← inv.owner (t := t') (by rw [there]; trivial)]

theorem inv_init (threads : Threads T) : Inv threads (init : State T) where
  promise t := trivial
  unique t t' pc := by cases pc

/-- Nobody holds a cleared word. -/
theorem Inv.not_holds (inv : Inv threads s) (free : s.mValue = cInvalidHandle) (t : T) :
    ¬(s.pc t).Holds := by
  intro holds
  have owner := inv.owner holds
  rw [free] at owner
  exact threads.valid t owner.symm

/-- Two holders are one thread. -/
theorem Inv.holder_unique (inv : Inv threads s) {t t' : T} (here : (s.pc t).Holds)
    (there : (s.pc t').Holds) : t = t' :=
  threads.injective ((inv.owner here).symm.trans (inv.owner there))

/-- A program point that neither holds nor releases survives a write of the word. -/
theorem promise_of_write {word word' : Handle} {exclusive : Bool} {t : T} {pc : Pc}
    (promise : Promise threads word exclusive t pc)
    (held : pc.Holds → word' &&& ~~~cWaitMask = threads.handle t)
    (releasing : pc = .unlockArbitrate → word' = cInvalidHandle) :
    Promise threads word' false t pc := by
  cases pc with
  | locked | unlockLoad => exact held trivial
  | unlockStore value => exact ⟨held trivial, promise.2.1, nofun⟩
  | lockStore | tryLockStore => exact nofun
  | lockStoreWait value => exact ⟨promise.1, nofun⟩
  | unlockArbitrate => exact releasing rfl
  | _ => trivial

variable [DecidableEq T]

/-- A step that leaves the word alone changes one thread's promise. -/
theorem Inv.moved (inv : Inv threads s) (t : T) {pc : Pc} {exclusive : Bool}
    (word : s'.mValue = s.mValue) (points : s'.pc = Function.update s.pc t pc)
    (monitors : ∀ u, u ≠ t → s'.exclusive u = s.exclusive u)
    (monitor : s'.exclusive t = exclusive)
    (promise : Promise threads s.mValue exclusive t pc) (running : pc ≠ .unlockArbitrate) :
    Inv threads s' where
  promise u := by
    rw [word, points]
    rcases eq_or_ne u t with rfl | other
    · rwa [Function.update_self, monitor]
    · rw [Function.update_of_ne other, monitors u other]
      exact inv.promise u
  unique u u' here there := by
    rw [points] at here there
    have moved : ∀ v, Function.update s.pc t pc v = .unlockArbitrate → v ≠ t ∧
        s.pc v = .unlockArbitrate := by
      intro v at_v
      rcases eq_or_ne v t with rfl | other
      · rw [Function.update_self] at at_v
        exact absurd at_v running
      · rw [Function.update_of_ne other] at at_v
        exact ⟨other, at_v⟩
    exact inv.unique u u' (moved u here).2 (moved u' there).2

/-- A step that writes the word and moves one thread. -/
theorem Inv.wrote (inv : Inv threads s) (t : T) {pc : Pc} {word : Handle}
    (others : ∀ u, u ≠ t → (s.pc u).Holds → word &&& ~~~cWaitMask = threads.handle u)
    (releasing : ∀ u, u ≠ t → s.pc u ≠ .unlockArbitrate)
    (promise : Promise threads word false t pc) :
    Inv threads ((s.write word).setPc t pc) where
  promise u := by
    simp only [State.setPc, State.write]
    rcases eq_or_ne u t with rfl | other
    · rwa [Function.update_self]
    · rw [Function.update_of_ne other]
      exact promise_of_write (inv.promise u) (others u other)
        (fun here => absurd here (releasing u other))
  unique u u' here there := by
    simp only [State.setPc, State.write] at here there
    have only : ∀ v, Function.update s.pc t pc v = .unlockArbitrate → v = t := by
      intro v at_v
      by_contra other
      rw [Function.update_of_ne other] at at_v
      exact releasing v other at_v
    rw [only u here, only u' there]

theorem Inv.afterLoad (inv : Inv threads s) (t : T) (next : Pc × Bool)
    (promise : Promise threads s.mValue next.2 t next.1) (running : next.1 ≠ .unlockArbitrate) :
    Inv threads (s.afterLoad t next) :=
  inv.moved t rfl rfl (fun _ other => Function.update_of_ne other _ _) (Function.update_self ..)
    promise running

/-- A load-exclusive and its branch: the monitor is set on the word that was read. -/
theorem Inv.loaded (inv : Inv threads s) {t : T}
    (loaded : s.loadExclusive threads t = some s') : Inv threads s' := by
  unfold State.loadExclusive at loaded
  split at loaded <;> cases loaded
  case h_1 =>
    apply inv.afterLoad
    · unfold lockBranch
      split_ifs with free own waiting
      · exact fun _ => free
      · exact own
      · exact ⟨free, fun _ => rfl⟩
      · trivial
    · unfold lockBranch
      split_ifs <;> exact nofun
  case h_2 => exact inv.afterLoad t (.tryLockLoad, true) trivial nofun
  case h_3 =>
    apply inv.afterLoad
    · unfold tryLockBranch
      split_ifs with free
      · trivial
      · exact fun _ => not_not.mp free
    · unfold tryLockBranch
      split_ifs <;> exact nofun
  case h_4 =>
    apply inv.afterLoad
    · unfold unlockBranch
      split_ifs with foreign
      · trivial
      · exact ⟨not_not.mp foreign, not_not.mp foreign, fun _ => rfl⟩
    · unfold unlockBranch
      split_ifs <;> exact nofun

private theorem owner_of_wait (value : Handle) :
    (value ||| cWaitMask) &&& ~~~cWaitMask = value &&& ~~~cWaitMask := by
  ext i bound
  simp only [BitVec.getElem_and, BitVec.getElem_or, BitVec.getElem_not]
  cases value[i] <;> cases cWaitMask[i] <;> rfl

/-- A store-exclusive that succeeds writes over the word that the thread has loaded. -/
theorem Inv.stored (inv : Inv threads s) {t : T} (quiet : Undisturbed s (.storeExclusive t))
    (stored : s.storeExclusive threads t = some s') : Inv threads s' := by
  unfold State.storeExclusive at stored
  split_ifs at stored with set
  have promise := inv.promise t
  rw [set] at promise
  have acquired (free : s.mValue = cInvalidHandle) (point : s.pc t = .lockStore ∨
      s.pc t = .tryLockStore) :
      Inv threads ((s.write (threads.handle t)).setPc t .locked) :=
    inv.wrote t (fun u _ holds => absurd holds (inv.not_holds free u)) (fun u _ => quiet point u)
      (threads.unmasked t)
  split at stored <;> cases stored
  case h_1 point =>
    rw [point] at promise
    exact acquired (promise rfl) (.inl point)
  case h_2 point =>
    rw [point] at promise
    exact acquired (promise rfl) (.inr point)
  case h_3 value point =>
    rw [point] at promise
    have word : s.mValue = value := promise.2 rfl
    apply inv.wrote t
    · intro u _ holds
      rw [owner_of_wait, ← word]
      exact inv.owner holds
    · intro u _ releasing
      exact promise.1 (word ▸ inv.cleared releasing)
    · trivial
  case h_4 value point =>
    rw [point] at promise
    have holder : (s.pc t).Holds := by rw [point]; trivial
    apply inv.wrote t
    · intro u other holds
      exact absurd (inv.holder_unique holds holder) other
    · intro u _ releasing
      exact inv.not_holds (inv.cleared releasing) t holder
    · split_ifs
      · exact rfl
      · trivial

/-- A failed store-exclusive goes back to a load, which promises nothing new. -/
theorem Inv.failed (inv : Inv threads s) {t : T} (failed : s.storeFails t = some s') :
    Inv threads s' := by
  have load : Inv threads (s.afterLoad t (.lockLoad, false)) := inv.afterLoad t _ trivial nofun
  have tryLoad : Inv threads (s.afterLoad t (.tryLockLoad, false)) :=
    inv.afterLoad t _ trivial nofun
  cases point : s.pc t with
  | lockStore | lockStoreWait =>
    simp only [State.storeFails, point, Option.some.injEq] at failed
    exact failed ▸ load
  | tryLockStore =>
    simp only [State.storeFails, point, Option.some.injEq] at failed
    exact failed ▸ tryLoad
  | unlockStore value =>
    simp only [State.storeFails, point, Option.some.injEq] at failed
    have owner := inv.owner (t := t) (by rw [point]; trivial)
    exact failed ▸ inv.afterLoad t (.unlockLoad, false) owner nofun
  | _ => simp [State.storeFails, point] at failed

/-- A program point that promises nothing may be entered at any time. -/
theorem Inv.entered (inv : Inv threads s) (t : T) {pc : Pc}
    (promise : Promise threads s.mValue (s.exclusive t) t pc) (running : pc ≠ .unlockArbitrate) :
    Inv threads (s.setPc t pc) :=
  inv.moved t rfl rfl (fun _ _ => rfl) rfl promise running

theorem Inv.arbitratedLock (inv : Inv threads s) {t : T}
    (called : s.arbitrateLock t = some s') : Inv threads s' := by
  unfold State.arbitrateLock at called
  split at called
  · have queued : Inv threads (s.setPc t .lockQueued) := inv.entered t trivial nofun
    have retries : Inv threads (s.setPc t .lockLoad) := inv.entered t trivial nofun
    split_ifs at called <;> cases called
    · exact ⟨queued.promise, queued.unique⟩
    · exact retries
  · cases called

/-- The kernel writes a cleared word, so it takes the lock from nobody. -/
theorem Inv.arbitratedUnlock (inv : Inv threads s) {t : T} {next : Option T}
    (called : s.arbitrateUnlock threads t next = some s') : Inv threads s' := by
  unfold State.arbitrateUnlock at called
  by_cases releasing : s.pc t = .unlockArbitrate
  · rw [if_pos releasing] at called
    have written (word : Handle) : Inv threads ((s.write word).setPc t .idle) :=
      inv.wrote t (fun u _ holds => absurd holds (inv.not_holds (inv.cleared releasing) u))
        (fun u other here => other (inv.unique u t here releasing)) trivial
    cases next with
    | none =>
      simp only [Option.ite_none_right_eq_some, Option.some.injEq] at called
      obtain ⟨_, rfl⟩ := called
      exact written _
    | some waiter =>
      simp only [Option.ite_none_right_eq_some, Option.some.injEq] at called
      obtain ⟨_, rfl⟩ := called
      have woken (word : Handle) :
          Inv threads (((s.write word).setPc t .idle).setPc waiter .lockLoad) :=
        (written word).entered waiter trivial nofun
      exact ⟨(woken _).promise, (woken _).unique⟩
  · rw [if_neg releasing] at called
    cases called

/-- One atomic step keeps the invariant, if it takes no lock in the middle of an unlock. -/
theorem Inv.step (inv : Inv threads s) {action : Action T} (quiet : Undisturbed s action)
    (stepped : step threads s action = some s') : Inv threads s' := by
  cases action with
  | lock t | tryLock t =>
    simp only [Os.step] at stepped
    split_ifs at stepped
    cases stepped
    exact inv.entered t trivial nofun
  | unlock t =>
    simp only [Os.step] at stepped
    split_ifs at stepped with locked
    cases stepped
    exact inv.entered t (inv.owner (by rw [locked]; trivial)) nofun
  | loadExclusive t => exact inv.loaded stepped
  | storeExclusive t => exact inv.stored quiet stepped
  | storeFails t => exact inv.failed stepped
  | arbitrateLock t => exact inv.arbitratedLock stepped
  | arbitrateUnlock t next => exact inv.arbitratedUnlock stepped

/-- In every run that takes no lock in the middle of an unlock, at most one thread is inside. -/
theorem mutuallyExclusive_of_undisturbed (threads : Threads T) {path : List (Action T)}
    {s : State T} (undisturbed : RunMeets (step threads) Undisturbed init path)
    (ran : run (step threads) init path = some s) : MutuallyExclusive s :=
  (run_invariant (fun _ _ _ inv quiet stepped => inv.step quiet stepped) (inv_init threads)
    undisturbed ran).exclusive

/-- Three threads with the first three handles. -/
def threeThreads : Threads (Fin 3) where
  handle t := BitVec.ofNat 32 (t + 1)
  injective := by unfold Function.Injective; decide
  valid := by decide
  unmasked := by decide

/-- Two threads lock and unlock in turn, the second one through the kernel's queue. -/
def handover : List (Action (Fin 3)) :=
  [.lock 0, .loadExclusive 0, .storeExclusive 0, .lock 1, .loadExclusive 1, .storeExclusive 1,
    .arbitrateLock 1, .unlock 0, .loadExclusive 0, .storeExclusive 0,
    .arbitrateUnlock 0 (some 1), .loadExclusive 1]

theorem mutuallyExclusive_handover :
    ∃ s, run (step threeThreads) init handover = some s ∧ MutuallyExclusive s := by
  have ran : (run (step threeThreads) init handover).isSome := by decide
  obtain ⟨s, ran⟩ := Option.isSome_iff_exists.mp ran
  exact ⟨s, ran, mutuallyExclusive_of_undisturbed threeThreads (by decide) ran⟩

/-- Thread 2 locks the cleared word before thread 0 calls the kernel, which wakes thread 1. -/
def barging : List (Action (Fin 3)) :=
  handover.take 10 ++ [.lock 2, .loadExclusive 2, .storeExclusive 2,
    .arbitrateUnlock 0 (some 1), .loadExclusive 1]

/-- The mutex admits two threads at once. -/
theorem barging_not_mutuallyExclusive :
    ¬∀ (path : List (Action (Fin 3))) (s : State (Fin 3)),
      run (step threeThreads) init path = some s → MutuallyExclusive s := by
  intro exclusive
  have ran : (run (step threeThreads) init barging).map (fun s => (s.pc 1, s.pc 2)) =
      some (.locked, .locked) := by decide
  obtain ⟨s, ran, points⟩ := Option.map_eq_some_iff.mp ran
  have same := exclusive barging s ran 1 2 (congrArg Prod.fst points) (congrArg Prod.snd points)
  exact absurd same (by decide)

end Hakkun.Os
