import Hakkun.Machine.Core.Run

/-! # Objects that are installed and uninstalled

An object replaces something in the world by a call and puts it back by another one. Over any
sequence of calls, between which the world may change, an object behaves when it knows whether it is
installed: it refuses what does not fit its state, and its last call restores what its first one
found. That follows from what the single calls do, by an invariant that relates the object to what
it has replaced.
-/

namespace Hakkun.Machine

variable {Obj World Request Saved : Type}

/-- The calls of an object; each gives a result, the object and the world after it. -/
structure Installer (Obj World Request : Type) where
  isInstalled : Obj → Bool
  install : Obj → World → Request → Except String Unit × Obj × World
  uninstall : Obj → World → Except String Unit × Obj × World

namespace Installer

/-- One event of a run: a call, or a change of the world by someone else. -/
inductive Event (World Request : Type) where
  | install (request : Request)
  | uninstall
  | other (world : World)

/-- An object, the world, and what was in the place of the object before the install that is in
force. -/
structure State (Obj World Saved : Type) where
  object : Obj
  world : World
  replaced : Option Saved

/-- A call that succeeded begins or ends an installation. -/
def after {R : Type} (result : Except String R) (value unchanged : Option Saved) : Option Saved :=
  match result with
  | .ok _ => value
  | .error _ => unchanged

variable (installer : Installer Obj World Request) (place : World → Request → Saved)
  (Restored : World → Saved → Prop)

/-- One event of a run. -/
def step (state : State Obj World Saved) : Event World Request → Option (State Obj World Saved)
  | .install request =>
    let result := installer.install state.object state.world request
    some ⟨result.2.1, result.2.2,
      after result.1 (some (place state.world request)) state.replaced⟩
  | .uninstall =>
    let result := installer.uninstall state.object state.world
    some ⟨result.2.1, result.2.2, after result.1 none state.replaced⟩
  | .other world => some { state with world := world }

/-- What the calls do in a state: an object that has replaced something is installed, is not
installed again and can be uninstalled, which restores it; any other object is not uninstalled. -/
def Behaves (state : State Obj World Saved) : Prop :=
  match state.replaced with
  | none =>
    installer.isInstalled state.object = false ∧
      installer.uninstall state.object state.world =
        (.error "NotInstalled", state.object, state.world)
  | some saved =>
    installer.isInstalled state.object = true ∧
      (∀ request, installer.install state.object state.world request =
        (.error "AlreadyInstalled", state.object, state.world)) ∧
      ∃ object world, installer.uninstall state.object state.world = (.ok (), object, world) ∧
        Restored world saved ∧ installer.isInstalled object = false

/-- A condition on the installs of an object that is not installed. -/
def OnInstall (condition : World → Request → Prop) (state : State Obj World Saved) :
    Event World Request → Prop
  | .install request =>
    installer.isInstalled state.object = false → condition state.world request
  | .uninstall | .other _ => True

/-- What the single calls have to do, given what an object knows of what it has replaced. -/
structure Sound (condition : World → Request → Prop) (Knows : Obj → Saved → Prop) : Prop where
  installed : ∀ {object saved}, Knows object saved → installer.isInstalled object = true
  again : ∀ {object} world request, installer.isInstalled object = true →
    installer.install object world request = (.error "AlreadyInstalled", object, world)
  never : ∀ {object} world, installer.isInstalled object = false →
    installer.uninstall object world = (.error "NotInstalled", object, world)
  install : ∀ {object world request result next world'}, installer.isInstalled object = false →
    condition world request → installer.install object world request = (result, next, world') →
    match result with
    | .ok () => Knows next (place world request)
    | .error _ => installer.isInstalled next = false
  uninstall : ∀ {object saved} world, Knows object saved →
    ∃ next world', installer.uninstall object world = (.ok (), next, world') ∧
      Restored world' saved ∧ installer.isInstalled next = false

variable {installer place Restored} {condition : World → Request → Prop}
  {Knows : Obj → Saved → Prop}

/-- An object is installed exactly when it has replaced something, and then it knows what. -/
def Consistent (installer : Installer Obj World Request) (Knows : Obj → Saved → Prop)
    (state : State Obj World Saved) : Prop :=
  match state.replaced with
  | none => installer.isInstalled state.object = false
  | some saved => Knows state.object saved

theorem Sound.behaves (sound : installer.Sound place Restored condition Knows)
    {state : State Obj World Saved} (consistent : Consistent installer Knows state) :
    installer.Behaves Restored state := by
  obtain ⟨object, world, replaced⟩ := state
  cases replaced with
  | none => exact ⟨consistent, sound.never world consistent⟩
  | some saved =>
    have installed := sound.installed consistent
    exact ⟨installed, fun request => sound.again world request installed,
      sound.uninstall world consistent⟩

theorem Sound.step (sound : installer.Sound place Restored condition Knows)
    {state next : State Obj World Saved} {event : Event World Request}
    (consistent : Consistent installer Knows state)
    (meets : installer.OnInstall condition state event)
    (stepped : installer.step place state event = some next) : Consistent installer Knows next := by
  obtain ⟨object, world, replaced⟩ := state
  cases event with
  | other world' =>
    obtain rfl := Option.some.inj stepped
    exact consistent
  | install request =>
    obtain rfl := Option.some.inj stepped
    cases replaced with
    | none =>
      cases called : installer.install object world request with
      | mk result rest =>
        have done := sound.install consistent (meets consistent) called
        cases result with
        | ok => simpa only [Consistent, called, after] using done
        | error => simpa only [Consistent, called, after] using done
    | some saved =>
      have refused := sound.again world request (sound.installed consistent)
      simpa only [Consistent, refused, after] using consistent
  | uninstall =>
    obtain rfl := Option.some.inj stepped
    cases replaced with
    | none =>
      have refused := sound.never world consistent
      simpa only [Consistent, refused, after] using consistent
    | some saved =>
      obtain ⟨next, world', called, -, cleared⟩ := sound.uninstall world consistent
      simpa only [Consistent, called, after] using cleared

/-- The run rule: an object that starts uninstalled behaves in every state that is reached. -/
theorem Sound.behaves_of_run (sound : installer.Sound place Restored condition Knows)
    {object : Obj} (fresh : installer.isInstalled object = false) {world : World}
    {events : List (Event World Request)} {state : State Obj World Saved}
    (meets : RunMeets (installer.step place) (installer.OnInstall condition)
      ⟨object, world, none⟩ events)
    (ran : run (installer.step place) ⟨object, world, none⟩ events = some state) :
    installer.Behaves Restored state := by
  apply sound.behaves
  apply run_invariant _ _ meets ran
  · intro source event target consistent met stepped
    exact sound.step consistent met stepped
  · exact fresh

end Installer

end Hakkun.Machine
