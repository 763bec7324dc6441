import Hakkun.Model.Core.Integer
import Mathlib.Logic.Function.Basic

/-! # The lock of the Rust addon

Translated from `mutex.rs`. Any number of `with_lock` and `try_with_lock` calls take steps in any
order, one atomic access or one supervisor call at a time; a call that a closure makes is another
call whose steps come between. The kernel is a parameter, with what is known of its results.
-/

namespace Hakkun.Rust

inductive ArbitrationType where
  | waitIfLessThan
  | decrementAndWaitIfLessThan
  | waitIfEqual

inductive SignalType where
  | signal
  | signalAndIncrementIfEqual
  | signalAndModifyBasedOnWaitingThreadCountIfEqual

/-- `State::Idle` and `State::Taken`. -/
def idle : U32 := 0
def taken : U32 := 1

/-- The results of the supervisor calls, given the word that they act on. -/
structure Kernel where
  waitForAddress : U32 → ArbitrationType → U32 → ℤ → U32
  signalToAddress : U32 → SignalType → U32 → ℤ → U32
  /-- `InvalidState` if the word is another one. -/
  wait_of_ne : ∀ word value, word ≠ value → waitForAddress word .waitIfEqual value 0 = 0xFA01
  /-- `TimedOut` at once if it is equal. -/
  wait_self : ∀ word, waitForAddress word .waitIfEqual word 0 = 0xEA01
  signal : ∀ word type value count, signalToAddress word type value count = 0

inductive Method where
  | tryWithLock
  | withLock
  deriving DecidableEq

/-- Where a call is; `closure` is inside of `f`. -/
inductive Phase (R : Type) where
  | compareExchange
  | closure
  | store (r : R)
  | signal (r : R)
  | wait
  | returned (r : Option R)
  | panicked

/-- The word, and the calls that were made. -/
structure SwitchFutex (R : Type) where
  value : U32
  calls : ℕ → Option (Method × Phase R)

/-- `proceed` is a step of the code of a call. -/
inductive Action (R : Type) where
  | call (self : ℕ) (method : Method)
  | closureReturns (self : ℕ) (r : R)
  | proceed (self : ℕ)

/-- Whether `panic_on_bad_result` returns. -/
def panicOnBadResult (result : U32) : Bool := !(result != 0 && result != 0xFA01)

namespace SwitchFutex

variable {R : Type} (kernel : Kernel) (futex : SwitchFutex R)

/-- `SwitchFutex::new`. -/
def new (R : Type) : SwitchFutex R := ⟨idle, fun _ => none⟩

def isLocked : Prop := futex.value ≠ idle

instance : Decidable futex.isLocked := inferInstanceAs (Decidable (_ ≠ _))

/-- One call goes on. -/
def put (self : ℕ) (method : Method) (phase : Phase R) : SwitchFutex R :=
  { futex with calls := Function.update futex.calls self (some (method, phase)) }

/-- The next access or supervisor call of a method. -/
def proceed (self : ℕ) (method : Method) : Phase R → Option (SwitchFutex R)
  | .compareExchange =>
    if futex.value = idle then some ({ futex with value := taken }.put self method .closure)
    else match method with
      | .tryWithLock => some (futex.put self method (.returned none))
      | .withLock => some (futex.put self method .wait)
  | .store r => some ({ futex with value := idle }.put self method (.signal r))
  | .signal r =>
    if panicOnBadResult (kernel.signalToAddress futex.value .signal idle 1) then
      some (futex.put self method (.returned (some r)))
    else some (futex.put self method .panicked)
  | .wait =>
    if panicOnBadResult (kernel.waitForAddress futex.value .waitIfEqual idle 0) then
      some (futex.put self method .compareExchange)
    else some (futex.put self method .panicked)
  | .closure | .returned _ | .panicked => none

def step : Action R → Option (SwitchFutex R)
  | .call self method =>
    if futex.calls self = none then some (futex.put self method .compareExchange) else none
  | .closureReturns self r =>
    match futex.calls self with
    | some (method, .closure) => some (futex.put self method (.store r))
    | _ => none
  | .proceed self => (futex.calls self).bind fun (method, phase) =>
    futex.proceed kernel self method phase

end SwitchFutex

end Hakkun.Rust
