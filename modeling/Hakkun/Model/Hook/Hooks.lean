import Hakkun.Model.Hook.Trampoline
import Mathlib.Logic.Function.Basic

/-! # Hooks that share a memory

`Replace` and `TrampolineStaticBase` objects over one memory, each with its own saved instructions
and, if it is a trampoline, its own backup. A call that does not succeed is no step.
-/

namespace Hakkun.Hook

open Ro

/-- The class of a hook, with the function that it leads to. -/
inductive Kind where
  | replace (mFunc : Ptr)
  | trampoline (target : Ptr)

namespace Kind

def target : Kind → Ptr
  | replace mFunc => mFunc
  | trampoline target => target

/-- `installAtOffset` of the class; a replacement leaves the backup alone. -/
def installAtOffset (N : ℕ) (before : Trampoline.Left) (module : RoModule) (offset : U64) :
    Kind → Option (Except String Unit × Trampoline.Left)
  | replace mFunc =>
    (Replace.installAtOffset N mFunc before.hook before.memory module offset).map
      fun (rc, hook, memory) => (rc, ⟨hook, memory, before.backup⟩)
  | trampoline target => Trampoline.installAtOffset N target before module offset

end Kind

/-- Where a hook is installed. -/
structure Site where
  module : RoModule
  offset : U64

/-- `getAt`. -/
def Site.getAt (site : Site) : Ptr := site.module.mTextRange.mStart + site.offset

/-- Hooks and memory, with the sites of the hooks that are installed and the memory that the last
install of each hook found. -/
structure Hooks (ι : Type) where
  hooks : ι → HookNInstr
  backups : ι → TrampolineBackup
  memory : Memory
  sites : ι → Option Site
  found : ι → Memory

namespace Hooks

variable {ι : Type} [DecidableEq ι]

/-- Constructed hooks. -/
def start (N : ℕ) (backups : ι → TrampolineBackup) (memory : Memory) : Hooks ι where
  hooks _ := HookNInstr.cleared N
  backups := backups
  memory := memory
  sites _ := none
  found _ := memory

inductive Event (ι : Type) where
  | install (i : ι) (site : Site)
  | uninstall (i : ι)

/-- A call that succeeds. -/
def step (N : ℕ) (kinds : ι → Kind) (state : Hooks ι) : Event ι → Option (Hooks ι)
  | .install i site =>
    match (kinds i).installAtOffset N ⟨state.hooks i, state.memory, state.backups i⟩ site.module
      site.offset with
    | some (.ok (), after) =>
      some
        { hooks := Function.update state.hooks i after.hook
          backups := Function.update state.backups i after.backup
          memory := after.memory
          sites := Function.update state.sites i (some site)
          found := Function.update state.found i state.memory }
    | _ => none
  | .uninstall i =>
    match (state.hooks i).uninstall N state.memory with
    | (.ok (), hook, memory) =>
      some
        { state with
          hooks := Function.update state.hooks i hook
          memory := memory
          sites := Function.update state.sites i none }
    | _ => none

end Hooks

end Hakkun.Hook
