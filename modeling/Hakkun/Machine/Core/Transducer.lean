import Mathlib.Data.List.Basic

/-! # Transducers

A machine reads its input from the left, emits items at each step and once more at the end. Two
machines emit the same when a relation between their states is kept, where one of them may be ahead
of the other by items that it has emitted already. A guard that reads the input as well restricts
the inputs for which this is so.
-/

namespace Hakkun.Machine.Core

structure Transducer (S C T : Type*) where
  next : S → C → List T × S
  last : S → List T

namespace Transducer

variable {S S' C T P : Type*} (machine : Transducer S C T) (machine' : Transducer S' C T)

/-- What is emitted while the input is read. -/
def emitted : S → List C → List T
  | _, [] => []
  | state, c :: rest => (machine.next state c).1 ++ emitted (machine.next state c).2 rest

/-- The state after the input. -/
def after : S → List C → S
  | state, [] => state
  | state, c :: rest => after (machine.next state c).2 rest

/-- Everything that is emitted. -/
def run (state : S) (input : List C) : List T :=
  machine.emitted state input ++ machine.last (machine.after state input)

@[simp] theorem emitted_nil (state : S) : machine.emitted state [] = [] := rfl

@[simp] theorem after_nil (state : S) : machine.after state [] = state := rfl

@[simp] theorem run_nil (state : S) : machine.run state [] = machine.last state := rfl

theorem emitted_cons (state : S) (c : C) (rest : List C) :
    machine.emitted state (c :: rest) =
      (machine.next state c).1 ++ machine.emitted (machine.next state c).2 rest := rfl

theorem after_cons (state : S) (c : C) (rest : List C) :
    machine.after state (c :: rest) = machine.after (machine.next state c).2 rest := rfl

theorem run_cons (state : S) (c : C) (rest : List C) :
    machine.run state (c :: rest) =
      (machine.next state c).1 ++ machine.run (machine.next state c).2 rest := by
  rw [run, run, emitted_cons, after_cons, List.append_assoc]

theorem emitted_append (state : S) (one two : List C) :
    machine.emitted state (one ++ two) =
      machine.emitted state one ++ machine.emitted (machine.after state one) two := by
  induction one generalizing state with
  | nil => rfl
  | cons c rest ih =>
    rw [List.cons_append, emitted_cons, ih, emitted_cons, after_cons, List.append_assoc]

theorem after_append (state : S) (one two : List C) :
    machine.after state (one ++ two) = machine.after (machine.after state one) two := by
  induction one generalizing state with
  | nil => rfl
  | cons c rest ih => rw [List.cons_append, after_cons, ih, after_cons]

theorem run_append (state : S) (one two : List C) :
    machine.run state (one ++ two) =
      machine.emitted state one ++ machine.run (machine.after state one) two := by
  rw [run, run, emitted_append, after_append, List.append_assoc]

/-- A state that collects what is read. -/
theorem collects (state : List C → S) {input : List C}
    (step : ∀ held, ∀ c ∈ input, machine.next (state held) c = ([], state (held ++ [c])))
    (held : List C) :
    machine.emitted (state held) input = [] ∧
      machine.after (state held) input = state (held ++ input) := by
  induction input generalizing held with
  | nil => exact ⟨rfl, by rw [List.append_nil]; rfl⟩
  | cons c rest ih =>
    obtain ⟨emits, stays⟩ := ih (fun held d member => step held d (List.mem_cons_of_mem c member))
      (held ++ [c])
    rw [emitted_cons, after_cons, step held c List.mem_cons_self]
    refine ⟨emits, ?_⟩
    rw [stays, List.append_assoc]
    rfl

/-! ## One machine ahead of the other -/

variable {machine machine'} {guard : P → C → Option P} {related : P → List T → S → S' → Prop}

/-- What a step keeps, of a phase of the guard, the items that the first machine is ahead by, and
the states of both. -/
def Keeps (machine : Transducer S C T) (machine' : Transducer S' C T) (guard : P → C → Option P)
    (related : P → List T → S → S' → Prop) : Prop :=
  ∀ {phase ahead state state'}, related phase ahead state state' → ∀ {c phase'},
    guard phase c = some phase' → ∃ ahead',
      ahead ++ (machine.next state c).1 = (machine'.next state' c).1 ++ ahead' ∧
        related phase' ahead' (machine.next state c).2 (machine'.next state' c).2

theorem Keeps.run (keeps : Keeps machine machine' guard related) {phase phase' : P} {ahead : List T}
    {state : S} {state' : S'} (start : related phase ahead state state') {input : List C}
    (guarded : input.foldlM guard phase = some phase') :
    ∃ ahead', ahead ++ machine.emitted state input = machine'.emitted state' input ++ ahead' ∧
      related phase' ahead' (machine.after state input) (machine'.after state' input) := by
  induction input generalizing phase ahead state state' with
  | nil =>
    cases guarded
    exact ⟨ahead, by simp, start⟩
  | cons c rest ih =>
    rw [List.foldlM_cons, Option.bind_eq_bind, Option.bind_eq_some_iff] at guarded
    obtain ⟨middle, first, later⟩ := guarded
    obtain ⟨next, emits, kept⟩ := keeps start first
    obtain ⟨last, emitted, final⟩ := ih kept later
    refine ⟨last, ?_, final⟩
    rw [emitted_cons, emitted_cons, ← List.append_assoc, emits, List.append_assoc, emitted,
      List.append_assoc]

end Transducer

end Hakkun.Machine.Core
