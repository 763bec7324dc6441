import Hakkun.Machine.Core.Fuel

/-! # Computations with events

A computation emits events, and then returns a value, aborts, has no defined behaviour, or has run
out of its fuel. Computations are composed like those of a writer.
-/

namespace Hakkun.Machine.Core

inductive Outcome (A : Type) where
  | returned (value : A)
  | aborted
  | undefined
  | running
  deriving DecidableEq

structure Effect (E A : Type) where
  events : List E
  outcome : Outcome A
  deriving DecidableEq

namespace Effect

variable {E A B : Type}

def pure (value : A) : Effect E A := ⟨[], .returned value⟩

def bind (first : Effect E A) (next : A → Effect E B) : Effect E B :=
  match first.outcome with
  | .returned value => ⟨first.events ++ (next value).events, (next value).outcome⟩
  | .aborted => ⟨first.events, .aborted⟩
  | .undefined => ⟨first.events, .undefined⟩
  | .running => ⟨first.events, .running⟩

instance : Monad (Effect E) where
  pure := pure
  bind := bind

def emit (event : E) : Effect E Unit := ⟨[event], .returned ()⟩

def abortUnless (condition : Bool) : Effect E Unit :=
  if condition then ⟨[], .returned ()⟩ else ⟨[], .aborted⟩

@[simp] theorem returned_bind (events : List E) (value : A) (next : A → Effect E B) :
    (⟨events, .returned value⟩ : Effect E A) >>= next =
      ⟨events ++ (next value).events, (next value).outcome⟩ := rfl

@[simp] theorem aborted_bind (events : List E) (next : A → Effect E B) :
    (⟨events, .aborted⟩ : Effect E A) >>= next = ⟨events, .aborted⟩ := rfl

@[simp] theorem emit_bind (event : E) (next : Unit → Effect E B) :
    emit event >>= next = ⟨event :: (next ()).events, (next ()).outcome⟩ := rfl

@[simp] theorem pure_bind (value : A) (next : A → Effect E B) :
    (Pure.pure value : Effect E A) >>= next = next value := rfl

theorem pure_eq (value : A) : (Pure.pure value : Effect E A) = ⟨[], .returned value⟩ := rfl

/-- What was emitted stays. -/
theorem bind_events_ne_nil {first : Effect E A} (emits : first.events ≠ [])
    (next : A → Effect E B) : (first >>= next).events ≠ [] := by
  obtain ⟨events, outcome⟩ := first
  cases outcome with
  | returned value => exact List.append_ne_nil_of_left_ne_nil emits _
  | aborted => exact emits
  | undefined => exact emits
  | running => exact emits

/-- A first part that comes to an end with a value. -/
theorem ends_bind {first : ℕ → Effect E A} {next : ℕ → A → Effect E B} {events later : List E}
    {value : A} {outcome : Outcome B} (ends : Ends first ⟨events, .returned value⟩)
    (goes : Ends (fun fuel => next fuel value) ⟨later, outcome⟩) :
    Ends (fun fuel => first fuel >>= next fuel) ⟨events ++ later, outcome⟩ := by
  filter_upwards [ends, goes] with fuel given then_
  rw [given, returned_bind, then_]

theorem ends_returned_bind {next : ℕ → A → Effect E B} {events later : List E} {value : A}
    {outcome : Outcome B} (goes : Ends (fun fuel => next fuel value) ⟨later, outcome⟩) :
    Ends (fun fuel => (⟨events, .returned value⟩ : Effect E A) >>= next fuel)
      ⟨events ++ later, outcome⟩ :=
  ends_bind (Ends.of_forall fun _ => rfl) goes

end Effect

end Hakkun.Machine.Core
