import Hakkun.Machine.Core.Ledger
import Hakkun.Model.Sf.Service
import Mathlib.Data.Nat.Init

/-! # Who closes the handles of services

A ledger of what the kernel gave says which exchanges are right: a handle that is held is closed
once or released, an object that is held is closed once, and messages go to held handles. Nothing
that is held may be left without a service that refers to it. A service that does not own its
session never closes it, and a service that is a domain loses its object when it is converted again
or released.
-/

namespace Hakkun.Sf

open Machine

/-! ## The ledger -/

inductive Holding where
  | unknown
  | held
  | released
  | closed
  deriving DecidableEq

/-- What became of every handle and every object of a session. -/
structure Ledger where
  handles : ℕ → Holding
  objects : ℕ → ℕ → Holding

namespace Ledger

/-- Before anything was received. -/
def empty : Ledger := ⟨fun _ => .unknown, fun _ _ => .unknown⟩

def setHandle (ledger : Ledger) (handle : ℕ) (holding : Holding) : Ledger :=
  { ledger with handles := Function.update ledger.handles handle holding }

def setObject (ledger : Ledger) (session object : ℕ) (holding : Holding) : Ledger :=
  { ledger with objects := fun s o =>
      if s = session ∧ o = object then holding else ledger.objects s o }

/-- The ledger after an exchange that is right. -/
def record (ledger : Ledger) : Event → Option Ledger
  | .receive handle => some (ledger.setHandle handle .held)
  | .receiveObject session object => some (ledger.setObject session object .held)
  | .send session (.closeObject object) =>
    if ledger.handles session = .held ∧ ledger.objects session object = .held then
      some (ledger.setObject session object .closed)
    else none
  | .send session _ => if ledger.handles session = .held then some ledger else none
  | .close handle =>
    if ledger.handles handle = .held then some (ledger.setHandle handle .closed) else none
  | .release handle =>
    if ledger.handles handle = .held then some (ledger.setHandle handle .released) else none

/-- What the kernel and a server can give: a new handle or one that was released, and an object
that the session does not have. -/
def CanGive (ledger : Ledger) : Event → Prop
  | .receive handle =>
    handle ≠ 0 ∧ (ledger.handles handle = .unknown ∨ ledger.handles handle = .released)
  | .receiveObject session object => ledger.objects session object = .unknown
  | _ => True

instance (ledger : Ledger) : DecidablePred ledger.CanGive
  | .receive handle => inferInstanceAs (Decidable
    (handle ≠ 0 ∧ (ledger.handles handle = .unknown ∨ ledger.handles handle = .released)))
  | .receiveObject session object =>
    inferInstanceAs (Decidable (ledger.objects session object = .unknown))
  | .send .. | .close _ | .release _ => inferInstanceAs (Decidable True)

end Ledger

/-! ## Correct calls -/

/-- Everything that is held is referred to. -/
structure Accounted (services : Services) (ledger : Ledger) : Prop where
  handles : ∀ handle, ledger.handles handle = .held →
    ∃ self service, services self = some service ∧ service.mSession = handle
  objects : ∀ session object, ledger.objects session object = .held →
    ∃ self service, services self = some service ∧ service.mSession = session ∧
      service.mObject = some object

/-- The services are audited by the ledger. -/
def serviceAudit : Audit Services ServiceCall Event Ledger where
  perform := Services.perform
  record := Ledger.record
  CanGive := Ledger.CanGive
  decidableCanGive _ := inferInstance
  Accounted := Accounted

/-- The services with what was exchanged before. -/
abbrev Session := Services × Ledger

namespace Session

/-- No service is alive and nothing was received. -/
def start : Session := (fun _ => none, .empty)

/-- The session of a service is held. -/
def Open (session : Session) (service : Service) : Prop :=
  session.2.handles service.mSession = .held

end Session

/-- The server tells the size of its pointer buffer if it is asked. -/
def Service.Sized (service : Service) (query : Option (BitVec 16)) : Prop :=
  service.mPointerBufferSize = -1 → query ≠ none

namespace Session

/-- What a call needs of the services it is on. -/
def Needs (session : Session) : ServiceCall → Prop
  | .ofHandle .. | .fromHandle .. | .move .. => True
  | .request self _ | .subservice self .. =>
    ∀ service, session.1 self = some service → session.Open service
  | .convertToDomain self query object =>
    ∀ service, session.1 self = some service → session.Open service ∧
      (service.Sized query → object ≠ none → service.mObject = none)
  | .toHandle self => ∀ service, session.1 self = some service → service.mObject = none
  | .destroy self query answered => ∀ service, session.1 self = some service →
    (service.mOwnedHandle = false → service.mObject = none → service.mSession = 0) ∧
    (service.mObject ≠ none → session.Open service ∧ (service.Sized query → answered = true ∧
      (service.mOwnedHandle = false → ∃ other otherService, other ≠ self ∧
        session.1 other = some otherService ∧
          otherService.mSession = service.mSession)))

/-- A call is not possible or has what it needs. -/
def Careful (session : Session) (call : ServiceCall) : Prop :=
  (serviceAudit.conduct session call).isSome = true → session.Needs call

end Session

/-! ## What services know of each other -/

/-- What the ledger says of the handle and the object of a service. -/
structure Service.Sound (service : Service) (ledger : Ledger) : Prop where
  owned : service.mOwnedHandle = true → ledger.handles service.mSession = .held
  object : ∀ object, service.mObject = some object →
    service.mSession ≠ 0 ∧ ledger.objects service.mSession object = .held
  known : service.mSession ≠ 0 →
    ledger.handles service.mSession = .held ∨ ledger.handles service.mSession = .closed
  plain : service.mSession ≠ 0 → service.mObject = none → ledger.handles service.mSession = .held

/-- Services on one session are different objects, and at most one of them owns it. -/
def Service.Apart (first second : Service) : Prop :=
  first.mSession = second.mSession → first.mSession ≠ 0 →
    first.mObject ≠ none ∧ second.mObject ≠ none ∧ first.mObject ≠ second.mObject ∧
      ¬ (first.mOwnedHandle = true ∧ second.mOwnedHandle = true)

theorem Service.Apart.symm {first second : Service} (apart : first.Apart second) :
    second.Apart first := by
  intro same nonzero
  obtain ⟨one, two, different, owners⟩ := apart same.symm (same ▸ nonzero)
  exact ⟨two, one, different.symm, fun both => owners both.symm⟩

structure Session.Inv (session : Session) : Prop where
  zero : session.2.handles 0 = .unknown
  sound : ∀ self service, session.1 self = some service → service.Sound session.2
  apart : ∀ self other service otherService, session.1 self = some service →
    session.1 other = some otherService → self ≠ other → service.Apart otherService

/-! ## Messages -/

def Message.closesObject : Message → Bool
  | .closeObject _ => true
  | _ => false

namespace Ledger

variable {ledger : Ledger} {session : ℕ}

theorem recordAll_cons (ledger : Ledger) (event : Event) (rest : List Event) :
    serviceAudit.recordAll ledger (event :: rest) =
      (ledger.record event).bind fun next => serviceAudit.recordAll next rest := rfl

theorem record_close_of_held (held : ledger.handles session = .held) :
    ledger.record (.close session) = some (ledger.setHandle session .closed) := if_pos held

/-- What is still held after something else happened to a handle was held. -/
theorem held_of_setHandle (ledger : Ledger) {handle : ℕ} {holding : Holding}
    (gone : holding ≠ .held) (other : ℕ)
    (held : (ledger.setHandle handle holding).handles other = .held) :
    ledger.handles other = .held := by
  by_cases same : other = handle
  · subst same
    exact absurd ((Function.update_self _ _ _).symm.trans held) gone
  · exact (Function.update_of_ne same _ _).symm.trans held

theorem held_of_setObject (ledger : Ledger) (session object : ℕ) {holding : Holding}
    (gone : holding ≠ .held) (otherSession other : ℕ)
    (held : (ledger.setObject session object holding).objects otherSession other = .held) :
    ledger.objects otherSession other = .held := by
  by_cases same : otherSession = session ∧ other = object
  · exact absurd ((if_pos same).symm.trans held) gone
  · exact (if_neg same).symm.trans held

theorem record_send_of_not_held (lost : ledger.handles session ≠ .held) (message : Message) :
    ledger.record (.send session message) = none := by
  cases message with
  | closeObject object => exact if_neg fun both => lost both.1
  | _ => exact if_neg lost

theorem record_send_of_held (held : ledger.handles session = .held) {message : Message}
    (plain : message.closesObject = false) :
    ledger.record (.send session message) = some ledger := by
  cases message with
  | closeObject object => cases plain
  | _ => exact if_pos held

end Ledger

namespace Service

variable {service : Service} {query : Option (BitVec 16)} {ledger : Ledger}

/-- What is asked before a message. -/
def queries (service : Service) : List Event :=
  if service.mPointerBufferSize = -1 then [.send service.mSession .queryPointerBufferSize] else []

theorem invoke_of_not_sized (unsized : ¬ service.Sized query) (message : Message) :
    service.invoke query message =
      ([.send service.mSession .queryPointerBufferSize], none) := by
  have asks : service.mPointerBufferSize = -1 := by
    by_contra known
    exact unsized fun asked => absurd asked known
  have silent : query = none := by
    by_contra told
    exact unsized fun _ => told
  rw [invoke, pointerBufferSize, if_neg (not_not.mpr asks), silent]
  rfl

theorem invoke_of_sized (sized : service.Sized query) (message : Message) : ∃ size,
    service.invoke query message = (service.queries ++ [.send service.mSession message],
      some { service with mPointerBufferSize := size }) := by
  rw [invoke, pointerBufferSize, queries]
  by_cases asks : service.mPointerBufferSize = -1
  · obtain ⟨size, rfl⟩ := Option.ne_none_iff_exists'.mp (sized asks)
    refine ⟨size, ?_⟩
    rw [if_neg (not_not.mpr asks), if_pos asks]
    rfl
  · refine ⟨service.mPointerBufferSize, ?_⟩
    rw [if_pos asks, if_neg asks]

theorem convertToDomain_none (service : Service) (query : Option (BitVec 16)) :
    service.convertToDomain query none = service.invoke query .convertToDomain := by
  rw [convertToDomain]
  rintro _ _ _ _ ⟨⟩

theorem convertToDomain_of_not_sized (unsized : ¬ service.Sized query) (object : Option ℕ) :
    service.convertToDomain query object = service.invoke query .convertToDomain := by
  rw [convertToDomain]
  rintro _ _ _ invoked
  cases (invoke_of_not_sized unsized _).symm.trans invoked

theorem convertToDomain_of_sized (sized : service.Sized query) (object : ℕ) : ∃ size,
    service.convertToDomain query (some object) =
      (service.queries ++ [.send service.mSession .convertToDomain] ++
        [.receiveObject service.mSession object],
      some { service with mPointerBufferSize := size, mObject := some object }) := by
  obtain ⟨size, invoked⟩ := invoke_of_sized sized .convertToDomain
  exact ⟨size, by unfold convertToDomain; rw [invoked]⟩

/-- The destructor closes something. -/
def Closes (service : Service) : Prop := service.mOwnedHandle = true ∨ service.mObject ≠ none

theorem closes_iff : (service.mOwnedHandle || service.mObject.isSome) = true ↔ service.Closes := by
  rw [Bool.or_eq_true, Option.isSome_iff_ne_none, Closes]

theorem destroy_of_not_closes (silent : ¬ service.Closes) (query : Option (BitVec 16))
    (answered : Bool) : service.destroy query answered = ([], true) :=
  if_neg fun closes => silent (closes_iff.mp closes)

theorem destroy_of_not_sized (closes : service.Closes) (unsized : ¬ service.Sized query)
    (answered : Bool) : service.destroy query answered =
      ([.send service.mSession .queryPointerBufferSize], false) := by
  rw [destroy, if_pos (closes_iff.mpr closes), invoke_of_not_sized unsized]

/-- The message of `release`, one more message with the same buffer, and the handle. -/
theorem destroy_of_sized (closes : service.Closes) (sized : service.Sized query)
    (answered : Bool) : service.destroy query answered =
      (service.queries ++ [.send service.mSession service.releaseMessage] ++
        [.send service.mSession (if answered then .reply else service.releaseMessage)] ++
          if service.mOwnedHandle then [.close service.mSession] else [], true) := by
  obtain ⟨size, invoked⟩ := invoke_of_sized sized service.releaseMessage
  rw [destroy, if_pos (closes_iff.mpr closes), invoked]

theorem recordAll_queries (held : ledger.handles service.mSession = .held) :
    serviceAudit.recordAll ledger service.queries = some ledger := by
  rw [queries]
  split
  · rw [Ledger.recordAll_cons, Ledger.record_send_of_held held rfl]
    rfl
  · rfl

/-- Every event of a request is a message on the session of the service. -/
theorem send_of_mem_invoke {message : Message} {event : Event}
    (member : event ∈ (service.invoke query message).1) :
    ∃ sent, event = .send service.mSession sent := by
  by_cases sized : service.Sized query
  · obtain ⟨size, invoked⟩ := invoke_of_sized sized message
    rw [invoked, queries] at member
    split at member
    · rcases List.mem_cons.mp member with rfl | member
      · exact ⟨_, rfl⟩
      · exact ⟨message, List.mem_singleton.mp member⟩
    · exact ⟨message, List.mem_singleton.mp member⟩
  · rw [invoke_of_not_sized sized] at member
    exact ⟨_, List.mem_singleton.mp member⟩

/-- A subservice can always be received. -/
theorem record_nextSubservice (ledger : Ledger) (next : Service) (received : ℕ) :
    ∃ after, ledger.record (next.nextSubservice received).1 = some after := by
  rw [nextSubservice]
  split
  · exact ⟨_, rfl⟩
  · exact ⟨_, rfl⟩

/-- On a session that is not held the first message is already wrong. -/
theorem recordAll_invoke_of_not_held (lost : ledger.handles service.mSession ≠ .held)
    (query : Option (BitVec 16)) (message : Message) :
    serviceAudit.recordAll ledger (service.invoke query message).1 = none := by
  have refused (sent : Message) (rest : List Event) :
      serviceAudit.recordAll ledger (.send service.mSession sent :: rest) = none := by
    rw [Ledger.recordAll_cons, Ledger.record_send_of_not_held lost]
    rfl
  by_cases sized : service.Sized query
  · obtain ⟨size, invoked⟩ := invoke_of_sized sized message
    rw [invoked, queries]
    split
    · exact refused _ _
    · exact refused _ _
  · rw [invoke_of_not_sized sized]
    exact refused _ _

theorem recordAll_invoke_of_held (held : ledger.handles service.mSession = .held)
    (message : Message) :
    serviceAudit.recordAll ledger (service.queries ++ [.send service.mSession message]) =
      ledger.record (.send service.mSession message) := by
  rw [Audit.recordAll_append, recordAll_queries held, Option.bind_some, Ledger.recordAll_cons]
  exact Option.bind_fun_some _

end Service

/-! ## What is referred to -/

theorem Services.place_self (services : Services) (place : ℕ) (service : Service) :
    services.place place service place = some service := Function.update_self _ _ _

theorem Services.place_of_ne (services : Services) {place other : ℕ} (different : other ≠ place)
    (service : Service) : services.place place service other = services other :=
  Function.update_of_ne different _ _

namespace Accounted

variable {services : Services} {ledger next : Ledger}

/-- A new service hides nothing. -/
theorem place (accounted : Accounted services ledger) {place : ℕ} (free : services place = none)
    (service : Service) : Accounted (services.place place service) ledger := by
  have kept {self : ℕ} {old : Service} (alive : services self = some old) :
      services.place place service self = some old := by
    rw [Services.place_of_ne, alive]
    rintro rfl
    cases free.symm.trans alive
  constructor
  · intro handle held
    obtain ⟨self, old, alive, same⟩ := accounted.handles handle held
    exact ⟨self, old, kept alive, same⟩
  · intro session object held
    obtain ⟨self, old, alive, same⟩ := accounted.objects session object held
    exact ⟨self, old, kept alive, same⟩

/-- A service that changes keeps what it refers to. -/
theorem replace (accounted : Accounted services ledger) {self : ℕ} {old new : Service}
    (alive : services self = some old) (session : new.mSession = old.mSession)
    (object : old.mObject = none ∨ new.mObject = old.mObject) :
    Accounted (services.place self new) ledger := by
  constructor
  · intro handle held
    obtain ⟨other, service, found, same⟩ := accounted.handles handle held
    by_cases here : other = self
    · subst here
      obtain rfl := Option.some.inj (alive.symm.trans found)
      exact ⟨other, new, services.place_self other new, session.trans same⟩
    · exact ⟨other, service, (services.place_of_ne here new).trans found, same⟩
  · intro handle name held
    obtain ⟨other, service, found, same, named⟩ := accounted.objects handle name held
    by_cases here : other = self
    · subst here
      obtain rfl := Option.some.inj (alive.symm.trans found)
      refine ⟨other, new, services.place_self other new, session.trans same, ?_⟩
      rcases object with without | kept
      · cases without.symm.trans named
      · exact kept.trans named
    · exact ⟨other, service, (services.place_of_ne here new).trans found, same, named⟩

/-- A service that goes takes nothing along that is still held. -/
theorem remove (accounted : Accounted services ledger) {self : ℕ} {old : Service}
    (alive : services self = some old) (value : Option Service)
    (handles : ∀ handle, next.handles handle = .held → ledger.handles handle = .held)
    (objects : ∀ session object, next.objects session object = .held →
      ledger.objects session object = .held)
    (shared : next.handles old.mSession = .held →
      ∃ other service, other ≠ self ∧ services other = some service ∧
        service.mSession = old.mSession)
    (named : ∀ object, old.mObject = some object → next.objects old.mSession object ≠ .held) :
    Accounted (Function.update services self value) next := by
  constructor
  · intro handle held
    obtain ⟨other, service, found, rfl⟩ := accounted.handles handle (handles handle held)
    by_cases here : other = self
    · subst here
      obtain rfl := Option.some.inj (alive.symm.trans found)
      obtain ⟨another, service', different, found', same⟩ := shared held
      exact ⟨another, service', (Function.update_of_ne different _ _).trans found', same⟩
    · exact ⟨other, service, (Function.update_of_ne here _ _).trans found, rfl⟩
  · intro session object held
    obtain ⟨other, service, found, rfl, same⟩ := accounted.objects session object
      (objects session object held)
    by_cases here : other = self
    · subst here
      obtain rfl := Option.some.inj (alive.symm.trans found)
      exact absurd held (named object same)
    · exact ⟨other, service, (Function.update_of_ne here _ _).trans found, rfl, same⟩

/-- The new place refers to what the old one did. -/
theorem move (accounted : Accounted services ledger) {place old : ℕ} {service : Service}
    (free : services place = none) (alive : services old = some service) :
    Accounted ((services.place old service.movedFrom).place place service) ledger := by
  have kept {other : ℕ} {found : Service} (here : other ≠ old) (lives : services other = some found) :
      (services.place old service.movedFrom).place place service other = some found := by
    have apart : other ≠ place := by
      rintro rfl
      cases free.symm.trans lives
    rw [Services.place_of_ne _ apart, Services.place_of_ne _ here, lives]
  constructor
  · intro handle held
    obtain ⟨other, found, lives, same⟩ := accounted.handles handle held
    by_cases here : other = old
    · subst here
      obtain rfl := Option.some.inj (alive.symm.trans lives)
      exact ⟨place, service, Services.place_self _ _ _, same⟩
    · exact ⟨other, found, kept here lives, same⟩
  · intro session object held
    obtain ⟨other, found, lives, same⟩ := accounted.objects session object held
    by_cases here : other = old
    · subst here
      obtain rfl := Option.some.inj (alive.symm.trans lives)
      exact ⟨place, service, Services.place_self _ _ _, same⟩
    · exact ⟨other, found, kept here lives, same⟩

theorem setHandle_held (accounted : Accounted services ledger) {handle self : ℕ}
    {service : Service} (alive : services self = some service)
    (refers : service.mSession = handle) : Accounted services (ledger.setHandle handle .held) := by
  refine ⟨fun other held => ?_, accounted.objects⟩
  by_cases same : other = handle
  · exact ⟨self, service, alive, refers.trans same.symm⟩
  · exact accounted.handles other ((Function.update_of_ne same _ _).symm.trans held)

theorem setObject_held (accounted : Accounted services ledger) {session object self : ℕ}
    {service : Service} (alive : services self = some service) (refers : service.mSession = session)
    (named : service.mObject = some object) :
    Accounted services (ledger.setObject session object .held) := by
  refine ⟨accounted.handles, fun otherSession otherObject held => ?_⟩
  by_cases same : otherSession = session ∧ otherObject = object
  · exact ⟨self, service, alive, refers.trans same.1.symm, by rw [named, same.2]⟩
  · exact accounted.objects _ _ ((if_neg same).symm.trans held)

end Accounted

/-! ## Single calls -/

namespace Session

variable {session : Session} {call : ServiceCall} {events : List Event} {next : Option Services}

variable (accounted : Accounted session.1 session.2) {self : ℕ} {service : Service}
  (alive : session.1 self = some service)
include accounted alive

/-- A message on the session of a service, and what the service is afterwards. -/
theorem shows_invoke_iff (query : Option (BitVec 16)) (message : Message)
    (plain : message.closesObject = false) :
    serviceAudit.Shows session.2 (service.invoke query message).1
        ((service.invoke query message).2.map (session.1.place self)) ↔
      session.Open service := by
  constructor
  · rintro ⟨after, recorded, -⟩
    by_contra lost
    cases (Service.recordAll_invoke_of_not_held lost query message).symm.trans recorded
  · intro held
    by_cases sized : service.Sized query
    · obtain ⟨size, invoked⟩ := Service.invoke_of_sized sized message
      rw [invoked]
      refine ⟨session.2, ?_, ?_⟩
      · rw [Service.recordAll_invoke_of_held held, Ledger.record_send_of_held held plain]
      · rintro _ ⟨⟩
        exact accounted.replace alive rfl (.inr rfl)
    · rw [Service.invoke_of_not_sized sized]
      refine ⟨session.2, ?_, nofun⟩
      rw [Ledger.recordAll_cons, Ledger.record_send_of_held held rfl]
      rfl

omit accounted alive in
theorem not_shows_of_not_held (lost : session.2.handles service.mSession ≠ .held)
    (query : Option (BitVec 16)) (message : Message) (rest : List Event) (next : Option Services) :
    ¬ serviceAudit.Shows session.2 ((service.invoke query message).1 ++ rest) next := by
  rintro ⟨after, recorded, -⟩
  rw [Audit.recordAll_append, Service.recordAll_invoke_of_not_held lost] at recorded
  cases recorded

/-- A subservice is referred to as soon as it is received. -/
theorem accounted_subservice {place : ℕ} (free : session.1 place = none) (next : Service)
    (same : next.mSession = service.mSession) (object : next.mObject = service.mObject)
    (received : ℕ) {after : Ledger}
    (recorded : session.2.record (next.nextSubservice received).1 = some after) :
    Accounted ((session.1.place self next).place place (next.nextSubservice received).2)
      after := by
  have apart : place ≠ self := by
    rintro rfl
    cases free.symm.trans alive
  have placed : session.1.place self next place = none :=
    (session.1.place_of_ne apart next).trans free
  have kept := (accounted.replace alive same (.inr object)).place placed
    (next.nextSubservice received).2
  have found := (session.1.place self next).place_self place (next.nextSubservice received).2
  rw [Service.nextSubservice] at recorded kept found ⊢
  split at recorded
  · rename_i domain
    rw [if_pos domain] at kept found ⊢
    obtain rfl := Option.some.inj recorded
    exact kept.setObject_held found rfl rfl
  · rename_i domain
    rw [if_neg domain] at kept found ⊢
    obtain rfl := Option.some.inj recorded
    exact kept.setHandle_held found rfl

omit accounted in
/-- What a call performs after its message. -/
theorem perform_subservice {place : ℕ} (free : session.1 place = none)
    (query : Option (BitVec 16)) (received : ℕ) :
    session.1.perform (.subservice self query place received) =
      some (match service.invoke query .request with
        | (events, none) => (events, none)
        | (events, some next) => (events ++ [(next.nextSubservice received).1],
            some ((session.1.place self next).place place
              (next.nextSubservice received).2))) := by
  rw [Services.perform, if_pos free, alive]
  rfl

theorem shows_subservice_iff {place : ℕ} (query : Option (BitVec 16)) (received : ℕ)
    {events : List Event} {next : Option Services}
    (performed : session.1.perform (.subservice self query place received) =
      some (events, next)) :
    serviceAudit.Shows session.2 events next ↔ session.Open service := by
  cases free : session.1 place with
  | some other =>
    rw [Services.perform, if_neg (by rw [free]; exact Option.some_ne_none other)] at performed
    cases performed
  | none =>
    rw [perform_subservice alive free] at performed
    by_cases sized : service.Sized query
    · obtain ⟨size, invoked⟩ := Service.invoke_of_sized sized .request
      have sent : (service.invoke query .request).1 =
          service.queries ++ [.send service.mSession .request] := congrArg Prod.fst invoked
      rw [invoked] at performed
      obtain ⟨rfl, rfl⟩ := Prod.mk.inj (Option.some.inj performed)
      constructor
      · intro shows
        by_contra lost
        rw [← sent] at shows
        exact not_shows_of_not_held lost query .request _ _ shows
      · intro held
        obtain ⟨after, recorded⟩ := Service.record_nextSubservice session.2
          { service with mPointerBufferSize := size } received
        refine ⟨after, ?_, ?_⟩
        · rw [Audit.recordAll_append, Service.recordAll_invoke_of_held held,
            Ledger.record_send_of_held held rfl, Option.bind_some,
            Ledger.recordAll_cons, recorded]
          rfl
        · rintro _ ⟨⟩
          exact accounted_subservice accounted alive free { service with mPointerBufferSize := size }
            rfl rfl received recorded
    · rw [Service.invoke_of_not_sized sized] at performed
      obtain ⟨rfl, rfl⟩ := Prod.mk.inj (Option.some.inj performed)
      have asked := shows_invoke_iff accounted alive query .request rfl
      rw [Service.invoke_of_not_sized sized] at asked
      exact asked

omit accounted in
/-- An object that a service gives up is not referred to any more. -/
theorem not_accounted_place (inv : session.Inv) {object : ℕ} (named : service.mObject = some object)
    {next : Service} (renamed : next.mObject ≠ some object) {after : Ledger}
    (held : after.objects service.mSession object = .held) :
    ¬ Accounted (session.1.place self next) after := by
  intro accounted
  obtain ⟨other, otherService, found, same, otherNamed⟩ := accounted.objects _ _ held
  by_cases here : other = self
  · subst here
    obtain rfl := Option.some.inj ((session.1.place_self other next).symm.trans found)
    exact renamed otherNamed
  · rw [Services.place_of_ne _ here] at found
    obtain ⟨nonzero, -⟩ := (inv.sound self service alive).object object named
    have apart := inv.apart self other service otherService alive found (Ne.symm here) same.symm
      nonzero
    exact apart.2.2.1 (named.trans otherNamed.symm)

theorem shows_convertToDomain_iff (inv : session.Inv) (query : Option (BitVec 16))
    (object : Option ℕ)
    (gives : service.Sized query → ∀ name, object = some name →
      session.2.objects service.mSession name = .unknown) :
    serviceAudit.Shows session.2 (service.convertToDomain query object).1
        ((service.convertToDomain query object).2.map (session.1.place self)) ↔
      session.Open service ∧ (service.Sized query → object ≠ none → service.mObject = none) := by
  have asked := shows_invoke_iff accounted alive query .convertToDomain rfl
  cases object with
  | none =>
    rw [Service.convertToDomain_none, asked]
    exact (and_iff_left fun _ some => absurd rfl some).symm
  | some name =>
    by_cases sized : service.Sized query
    · obtain ⟨_, invoked⟩ := Service.invoke_of_sized sized .convertToDomain
      obtain ⟨size, converted⟩ := Service.convertToDomain_of_sized sized name
      have sent : (service.invoke query .convertToDomain).1 =
          service.queries ++ [.send service.mSession .convertToDomain] := congrArg Prod.fst invoked
      have new := gives sized name rfl
      rw [converted]
      constructor
      · rintro ⟨after, recorded, refers⟩
        have held : session.Open service := by
          by_contra lost
          rw [← sent] at recorded
          exact not_shows_of_not_held lost query .convertToDomain _ _ ⟨after, recorded, refers⟩
        refine ⟨held, fun _ _ => ?_⟩
        rw [Audit.recordAll_append, Service.recordAll_invoke_of_held held,
          Ledger.record_send_of_held held rfl] at recorded
        obtain rfl := Option.some.inj recorded
        by_contra other
        obtain ⟨old, named⟩ := Option.ne_none_iff_exists'.mp other
        have oldHeld := ((inv.sound self service alive).object old named).2
        have different : old ≠ name := by
          rintro rfl
          cases new.symm.trans oldHeld
        refine not_accounted_place alive inv named ?_ ?_ (refers _ rfl)
        · exact fun same => different (Option.some.inj same).symm
        · exact (if_neg fun same => different same.2).trans oldHeld
      · rintro ⟨held, plain⟩
        have without := plain sized (Option.some_ne_none name)
        refine ⟨session.2.setObject service.mSession name .held, ?_, ?_⟩
        · rw [Audit.recordAll_append, Service.recordAll_invoke_of_held held,
            Ledger.record_send_of_held held rfl]
          rfl
        · rintro _ ⟨⟩
          have replaced : Accounted (session.1.place self
              { service with mPointerBufferSize := size, mObject := some name }) session.2 :=
            accounted.replace alive rfl (.inl without)
          exact replaced.setObject_held (session.1.place_self self _) rfl rfl
    · rw [Service.convertToDomain_of_not_sized sized, asked]
      exact (and_iff_left fun told => absurd told sized).symm

/-- A handle that is given away must not be a domain. -/
theorem shows_toHandle_iff (inv : session.Inv) :
    serviceAudit.Shows session.2 (if service.mSession = 0 then [] else [.release service.mSession])
        (some (session.1.place self service.movedFrom)) ↔ service.mObject = none := by
  have sound := inv.sound self service alive
  by_cases none : service.mSession = 0
  · rw [if_pos none]
    refine iff_of_true (Audit.shows_nil ?_) ?_
    · refine accounted.remove alive (some service.movedFrom) (fun _ => id) (fun _ _ => id) ?_ ?_
      · intro held
        rw [none, inv.zero] at held
        cases held
      · intro object named
        exact absurd none (sound.object object named).1
    · by_contra some
      obtain ⟨object, named⟩ := Option.ne_none_iff_exists'.mp some
      exact (sound.object object named).1 none
  · rw [if_neg none]
    constructor
    · rintro ⟨after, recorded, refers⟩
      by_contra some
      obtain ⟨object, named⟩ := Option.ne_none_iff_exists'.mp some
      rw [Ledger.recordAll_cons, Ledger.record] at recorded
      obtain ⟨next, step, same⟩ := Option.bind_eq_some_iff.mp recorded
      obtain ⟨-, step⟩ := Option.ite_none_right_eq_some.mp step
      obtain rfl := Option.some.inj step
      obtain rfl := Option.some.inj same
      refine not_accounted_place alive inv named ?_ ?_ (refers _ rfl)
      · exact nofun
      · exact (sound.object object named).2
    · intro plain
      have held := sound.plain none plain
      refine ⟨session.2.setHandle service.mSession .released, ?_, ?_⟩
      · rw [Ledger.recordAll_cons, Ledger.record, if_pos held]
        rfl
      · rintro _ ⟨⟩
        refine accounted.remove alive (some service.movedFrom) ?_ (fun _ _ => id) ?_ ?_
        · exact session.2.held_of_setHandle nofun
        · intro still
          cases (Function.update_self _ _ _).symm.trans still
        · intro object named
          cases plain.symm.trans named

/-- A service that closes nothing must not be the last one on a session. -/
theorem shows_destroy_of_not_closes (inv : session.Inv) (silent : ¬ service.Closes) :
    serviceAudit.Shows session.2 [] (some (Function.update session.1 self none)) ↔
      service.mSession = 0 := by
  have sound := inv.sound self service alive
  have plain : service.mObject = none := by
    by_contra some
    exact silent (.inr some)
  constructor
  · rintro ⟨after, ⟨⟩, refers⟩
    by_contra nonzero
    obtain ⟨other, otherService, found, same⟩ :=
      (refers _ rfl).handles _ (sound.plain nonzero plain)
    by_cases here : other = self
    · subst here
      cases (Function.update_self _ _ _).symm.trans found
    · rw [Function.update_of_ne here] at found
      have apart := inv.apart self other service otherService alive found (Ne.symm here) same.symm
        nonzero
      exact apart.1 plain
  · intro none
    refine Audit.shows_nil (accounted.remove alive _ (fun _ => id) (fun _ _ => id) ?_ ?_)
    · intro held
      rw [none, inv.zero] at held
      cases held
    · intro object named
      cases plain.symm.trans named

omit accounted alive in
/-- A session that is not a domain is closed. -/
theorem recordAll_destroy_of_plain (held : session.Open service)
    (owned : service.mOwnedHandle = true) (plain : service.mObject = none) (answered : Bool) :
    serviceAudit.recordAll session.2
        (service.queries ++ [.send service.mSession service.releaseMessage] ++
          [.send service.mSession (if answered then .reply else service.releaseMessage)] ++
            if service.mOwnedHandle then [.close service.mSession] else []) =
      some (session.2.setHandle service.mSession .closed) := by
  have message : service.releaseMessage = .close := by rw [Service.releaseMessage, plain]
  have last : (if answered then Message.reply else .close).closesObject = false := by
    cases answered <;> rfl
  rw [List.append_assoc, Audit.recordAll_append, Service.recordAll_invoke_of_held held, message,
    Ledger.record_send_of_held held rfl, Option.bind_some, if_pos owned, List.singleton_append,
    Ledger.recordAll_cons, Ledger.record_send_of_held held last, Option.bind_some,
    Ledger.recordAll_cons, Ledger.record_close_of_held held]
  rfl

/-- The ledger after a domain was closed. -/
def closedObject (ledger : Ledger) (service : Service) (object : ℕ) : Ledger :=
  let closed := ledger.setObject service.mSession object .closed
  if service.mOwnedHandle then closed.setHandle service.mSession .closed else closed

omit accounted alive in
/-- A domain is closed when the message is answered; otherwise it is closed again. -/
theorem recordAll_destroy_of_object (held : session.Open service) {object : ℕ}
    (named : service.mObject = some object)
    (objectHeld : session.2.objects service.mSession object = .held) (answered : Bool) :
    serviceAudit.recordAll session.2
        (service.queries ++ [.send service.mSession service.releaseMessage] ++
          [.send service.mSession (if answered then .reply else service.releaseMessage)] ++
            if service.mOwnedHandle then [.close service.mSession] else []) =
      if answered then some (closedObject session.2 service object) else none := by
  have message : service.releaseMessage = .closeObject object := by
    rw [Service.releaseMessage, named]
  have stillHeld : (session.2.setObject service.mSession object .closed).handles
      service.mSession = .held := held
  have first : session.2.record (.send service.mSession service.releaseMessage) =
      some (session.2.setObject service.mSession object .closed) := by
    rw [message]
    exact if_pos ⟨held, objectHeld⟩
  rw [List.append_assoc, Audit.recordAll_append, Service.recordAll_invoke_of_held held, first,
    Option.bind_some, List.singleton_append, Ledger.recordAll_cons]
  cases answered with
  | false =>
    have gone : (session.2.setObject service.mSession object .closed).objects
        service.mSession object = .closed := if_pos ⟨rfl, rfl⟩
    have twice : (session.2.setObject service.mSession object .closed).record
        (.send service.mSession service.releaseMessage) = none := by
      rw [message]
      refine if_neg fun both => ?_
      cases gone.symm.trans both.2
    rw [if_neg Bool.false_ne_true, twice]
    rfl
  | true =>
    rw [if_pos rfl, Ledger.record_send_of_held stillHeld rfl, Option.bind_some, closedObject]
    cases service.mOwnedHandle with
    | true =>
      rw [if_pos rfl, Ledger.recordAll_cons, Ledger.record_close_of_held stillHeld]
      rfl
    | false => rfl

/-- A domain that does not own its session must not be the last one on it. -/
theorem accounted_closedObject_iff (held : session.Open service) {object : ℕ}
    (named : service.mObject = some object) :
    Accounted (Function.update session.1 self none)
        (closedObject session.2 service object) ↔
      (service.mOwnedHandle = false → ∃ other otherService, other ≠ self ∧
        session.1 other = some otherService ∧
          otherService.mSession = service.mSession) := by
  have objects := session.2.held_of_setObject service.mSession object
    (show Holding.closed ≠ .held from nofun)
  have gone (other : ℕ) (same : service.mObject = some other) :
      (session.2.setObject service.mSession object .closed).objects service.mSession other ≠
        .held := by
    obtain rfl := Option.some.inj (named.symm.trans same)
    rw [show (session.2.setObject service.mSession object .closed).objects service.mSession
      object = .closed from if_pos ⟨rfl, rfl⟩]
    exact nofun
  rw [closedObject]
  cases service.mOwnedHandle with
  | true =>
    refine iff_of_true ?_ nofun
    refine accounted.remove alive none (Ledger.held_of_setHandle _ nofun) objects ?_ gone
    intro still
    cases (Function.update_self _ _ _).symm.trans still
  | false =>
    rw [if_neg Bool.false_ne_true]
    constructor
    · intro refers _
      obtain ⟨other, otherService, found, same⟩ := refers.handles _ held
      have different : other ≠ self := by
        rintro rfl
        cases (Function.update_self _ _ _).symm.trans found
      exact ⟨other, otherService, different, (Function.update_of_ne different _ _).symm.trans found,
        same⟩
    · intro shared
      exact accounted.remove alive none (fun _ => id) objects (fun _ => shared rfl) gone

theorem shows_destroy_iff (inv : session.Inv) (query : Option (BitVec 16)) (answered : Bool) :
    serviceAudit.Shows session.2 (service.destroy query answered).1
        (if (service.destroy query answered).2 then
          some (Function.update session.1 self none) else none) ↔
      (service.mOwnedHandle = false → service.mObject = none → service.mSession = 0) ∧
      (service.mObject ≠ none → session.Open service ∧ (service.Sized query → answered = true ∧
        (service.mOwnedHandle = false → ∃ other otherService, other ≠ self ∧
          session.1 other = some otherService ∧
            otherService.mSession = service.mSession))) := by
  have sound := inv.sound self service alive
  by_cases closes : service.Closes
  swap
  · rw [Service.destroy_of_not_closes closes]
    refine (shows_destroy_of_not_closes accounted alive inv closes).trans ?_
    have shared : service.mOwnedHandle = false := Bool.eq_false_iff.mpr fun owned => closes (.inl owned)
    have plain : service.mObject = none := by
      by_contra some
      exact closes (.inr some)
    constructor
    · exact fun none => ⟨fun _ _ => none, fun some => absurd plain some⟩
    · exact fun needs => needs.1 shared plain
  · have first : service.mOwnedHandle = false → service.mObject = none → service.mSession = 0 := by
      intro shared plain
      rcases closes with owned | some
      · cases shared.symm.trans owned
      · exact absurd plain some
    refine Iff.trans ?_ (and_iff_right first).symm
    by_cases held : session.Open service
    swap
    · have lost : ¬ serviceAudit.Shows session.2 (service.destroy query answered).1
          (if (service.destroy query answered).2 then
            some (Function.update session.1 self none) else none) := by
        by_cases sized : service.Sized query
        · obtain ⟨size, invoked⟩ := Service.invoke_of_sized sized service.releaseMessage
          have sent : (service.invoke query service.releaseMessage).1 =
              service.queries ++ [.send service.mSession service.releaseMessage] :=
            congrArg Prod.fst invoked
          rw [Service.destroy_of_sized closes sized, List.append_assoc, ← sent]
          exact not_shows_of_not_held held query service.releaseMessage _ _
        · have sent := congrArg Prod.fst
            (Service.invoke_of_not_sized sized service.releaseMessage)
          rw [Service.destroy_of_not_sized closes sized]
          have refused := not_shows_of_not_held held query service.releaseMessage [] none
          rw [List.append_nil, sent] at refused
          exact refused
      refine iff_of_false lost fun needs => ?_
      rcases closes with owned | some
      · exact held (sound.owned owned)
      · exact held (needs some).1
    · by_cases sized : service.Sized query
      · rw [Service.destroy_of_sized closes sized]
        cases named : service.mObject with
        | none =>
          have owned : service.mOwnedHandle = true := by
            rcases closes with owned | some
            · exact owned
            · exact absurd named some
          refine iff_of_true ⟨_, recordAll_destroy_of_plain held owned named answered, ?_⟩
            fun some => absurd rfl some
          rintro _ ⟨⟩
          refine accounted.remove alive none (session.2.held_of_setHandle nofun)
            (fun _ _ => id) ?_ ?_
          · intro still
            cases (Function.update_self _ _ _).symm.trans still
          · intro object named'
            cases named.symm.trans named'
        | some object =>
          have objectHeld := (sound.object object named).2
          have refers := accounted_closedObject_iff accounted alive held named
          rw [Audit.Shows, recordAll_destroy_of_object held named objectHeld]
          constructor
          · rintro ⟨after, recorded, left⟩ -
            obtain ⟨told, same⟩ := Option.ite_none_right_eq_some.mp recorded
            obtain rfl := Option.some.inj same
            exact ⟨held, fun _ => ⟨told, refers.mp (left _ rfl)⟩⟩
          · intro needs
            obtain ⟨told, shared⟩ := (needs (Option.some_ne_none object)).2 sized
            refine ⟨_, if_pos told, ?_⟩
            rintro _ ⟨⟩
            exact refers.mpr shared
      · rw [Service.destroy_of_not_sized closes sized]
        refine iff_of_true ⟨session.2, ?_, nofun⟩ fun _ => ⟨held, fun told => absurd told sized⟩
        rw [Ledger.recordAll_cons, Ledger.record_send_of_held held rfl]
        rfl

omit alive in
/-- A handle from the kernel is referred to by the service that is made from it. -/
theorem shows_receive {place handle : ℕ} (free : session.1 place = none) {new : Service}
    (refers : new.mSession = handle) :
    serviceAudit.Shows session.2 [.receive handle] (some (session.1.place place new)) := by
  refine ⟨session.2.setHandle handle .held, rfl, ?_⟩
  rintro _ ⟨⟩
  exact (accounted.place free new).setHandle_held (session.1.place_self place new) refers

omit alive in
/-- Every call is correct exactly when it is careful. -/
theorem correct_iff_careful (inv : session.Inv) (call : ServiceCall) :
    serviceAudit.Correct session call ↔ session.Careful call := by
  apply Audit.correct_iff_of_perform
  intro events next performed gives
  cases call with
  | ofHandle place handle =>
    obtain ⟨free, same⟩ := Option.ite_none_right_eq_some.mp performed
    obtain ⟨rfl, rfl⟩ := Prod.mk.inj (Option.some.inj same)
    exact iff_of_true (shows_receive accounted free rfl) trivial
  | fromHandle place handle =>
    obtain ⟨free, same⟩ := Option.ite_none_right_eq_some.mp performed
    obtain ⟨rfl, rfl⟩ := Prod.mk.inj (Option.some.inj same)
    exact iff_of_true (shows_receive accounted free rfl) trivial
  | move place old =>
    obtain ⟨free, same⟩ := Option.ite_none_right_eq_some.mp performed
    obtain ⟨service, alive, same⟩ := Option.map_eq_some_iff.mp same
    obtain ⟨rfl, rfl⟩ := Prod.mk.inj same
    exact iff_of_true (Audit.shows_nil (accounted.move free alive)) trivial
  | request self query =>
    obtain ⟨service, alive, same⟩ := Option.map_eq_some_iff.mp performed
    obtain ⟨rfl, rfl⟩ := Prod.mk.inj same
    refine (shows_invoke_iff accounted alive query .request rfl).trans ?_
    simp only [Needs, alive, Option.some.injEq, forall_eq']
  | subservice self query place received =>
    obtain ⟨free, same⟩ := Option.ite_none_right_eq_some.mp performed
    obtain ⟨service, alive, -⟩ := Option.map_eq_some_iff.mp same
    refine (shows_subservice_iff accounted alive query received performed).trans ?_
    simp only [Needs, alive, Option.some.injEq, forall_eq']
  | convertToDomain self query object =>
    obtain ⟨service, alive, same⟩ := Option.map_eq_some_iff.mp performed
    obtain ⟨rfl, rfl⟩ := Prod.mk.inj same
    have new (sized : service.Sized query) (name : ℕ) (named : object = some name) :
        session.2.objects service.mSession name = .unknown := by
      subst named
      obtain ⟨size, converted⟩ := Service.convertToDomain_of_sized sized name
      change ∀ event ∈ (service.convertToDomain query (some name)).1, _ at gives
      rw [converted] at gives
      exact gives (.receiveObject service.mSession name)
        (List.mem_append_right _ (List.mem_singleton_self _))
    refine (shows_convertToDomain_iff accounted alive inv query object new).trans ?_
    simp only [Needs, alive, Option.some.injEq, forall_eq']
  | toHandle self =>
    obtain ⟨service, alive, same⟩ := Option.map_eq_some_iff.mp performed
    obtain ⟨rfl, rfl⟩ := Prod.mk.inj same
    refine (shows_toHandle_iff accounted alive inv).trans ?_
    simp only [Needs, alive, Option.some.injEq, forall_eq']
  | destroy self query answered =>
    obtain ⟨service, alive, same⟩ := Option.map_eq_some_iff.mp performed
    obtain ⟨rfl, rfl⟩ := Prod.mk.inj same
    refine (shows_destroy_iff accounted alive inv query answered).trans ?_
    simp only [Needs, alive, Option.some.injEq, forall_eq']

/-! ## The invariant -/

omit accounted alive in
theorem Inv.update (inv : session.Inv) {self : ℕ} {value : Option Service} {ledger : Ledger}
    (zero : ledger.handles 0 = .unknown)
    (others : ∀ other service, other ≠ self → session.1 other = some service →
      service.Sound ledger)
    (sound : ∀ service, value = some service → service.Sound ledger)
    (apart : ∀ other service new, other ≠ self → session.1 other = some service →
      value = some new → new.Apart service) :
    Session.Inv (Function.update session.1 self value, ledger) where
  zero := zero
  sound other service alive := by
    have found : Function.update session.1 self value other = some service := alive
    by_cases here : other = self
    · subst here
      rw [Function.update_self] at found
      exact sound service found
    · rw [Function.update_of_ne here] at found
      exact others other service here found
  apart first second one two alive lives different := by
    have found : Function.update session.1 self value first = some one := alive
    have other : Function.update session.1 self value second = some two := lives
    by_cases here : first = self
    · subst here
      rw [Function.update_self] at found
      rw [Function.update_of_ne different.symm] at other
      exact apart second two one different.symm other found
    · rw [Function.update_of_ne here] at found
      by_cases there : second = self
      · subst there
        rw [Function.update_self] at other
        exact (apart first one two here found other).symm
      · rw [Function.update_of_ne there] at other
        exact inv.apart first second one two found other different

end Session

namespace Service

variable {service : Service} {ledger : Ledger}

/-- What happens to another handle does not matter. -/
theorem Sound.setHandle (sound : service.Sound ledger) {handle : ℕ} (holding : Holding)
    (other : service.mSession ≠ handle) : service.Sound (ledger.setHandle handle holding) := by
  have same : (ledger.setHandle handle holding).handles service.mSession =
      ledger.handles service.mSession := Function.update_of_ne other _ _
  constructor
  · rw [same]
    exact sound.owned
  · exact sound.object
  · rw [same]
    exact sound.known
  · rw [same]
    exact sound.plain

/-- What happens to another object does not matter. -/
theorem Sound.setObject (sound : service.Sound ledger) {session object : ℕ} (holding : Holding)
    (other : holding = .held ∨ service.mSession ≠ session ∨ service.mObject ≠ some object) :
    service.Sound (ledger.setObject session object holding) := by
  refine ⟨sound.owned, fun name named => ?_, sound.known, sound.plain⟩
  obtain ⟨nonzero, held⟩ := sound.object name named
  refine ⟨nonzero, ?_⟩
  by_cases same : service.mSession = session ∧ name = object
  · rcases other with rfl | elsewhere | different
    · exact if_pos same
    · exact absurd same.1 elsewhere
    · exact absurd (same.2 ▸ named) different
  · exact (if_neg same).trans held

theorem sound_movedFrom (service : Service) (ledger : Ledger) : service.movedFrom.Sound ledger where
  owned := nofun
  object _ := nofun
  known nonzero := absurd rfl nonzero
  plain nonzero := absurd rfl nonzero

theorem apart_movedFrom (service other : Service) : service.movedFrom.Apart other :=
  fun _ nonzero => absurd rfl nonzero

end Service

namespace Session

variable {session target : Session} {call : ServiceCall}

namespace Inv

variable (inv : session.Inv) {self place handle : ℕ} {service : Service}
include inv

theorem session_ne_zero (held : session.Open service) : service.mSession ≠ 0 := by
  intro zero
  rw [Open, zero, inv.zero] at held
  cases held

/-- A handle that can be received is not the session of a service. -/
theorem session_ne_of_canGive (alive : session.1 self = some service)
    (gives : session.2.CanGive (.receive handle)) : service.mSession ≠ handle := by
  rintro rfl
  obtain ⟨nonzero, new⟩ := gives
  rcases (inv.sound self service alive).known nonzero with held | closed
  · rcases new with unknown | released
    · cases unknown.symm.trans held
    · cases released.symm.trans held
  · rcases new with unknown | released
    · cases unknown.symm.trans closed
    · cases released.symm.trans closed

/-- A handle is received for a service that is made from it. -/
theorem receive (gives : session.2.CanGive (.receive handle)) {new : Service}
    (refers : new.mSession = handle) (plain : new.mObject = none) :
    Session.Inv (session.1.place place new, session.2.setHandle handle .held) := by
  have held : (session.2.setHandle handle .held).handles handle = .held :=
    Function.update_self _ _ _
  apply inv.update
  · exact (Function.update_of_ne gives.1.symm _ _).trans inv.zero
  · intro other service _ alive
    exact (inv.sound other service alive).setHandle _ (inv.session_ne_of_canGive alive gives)
  · rintro _ ⟨⟩
    subst refers
    exact ⟨fun _ => held, fun object named => (nomatch plain.symm.trans named),
      fun _ => .inl held, fun _ _ => held⟩
  · rintro other service _ _ alive ⟨⟩ same
    exact absurd (same.symm.trans refers) (inv.session_ne_of_canGive alive gives)

/-- The size of the pointer buffer does not matter. -/
theorem resize (alive : session.1 self = some service) (size : BitVec 16) :
    Session.Inv (session.1.place self { service with mPointerBufferSize := size }, session.2) := by
  have sound := inv.sound self service alive
  apply inv.update inv.zero
  · intro other service _ lives
    exact inv.sound other service lives
  · rintro _ ⟨⟩
    exact ⟨sound.owned, sound.object, sound.known, sound.plain⟩
  · rintro other service' _ different lives ⟨⟩
    exact inv.apart self other service service' alive lives (Ne.symm different)

theorem move {old : ℕ} (alive : session.1 old = some service) :
    Session.Inv ((session.1.place old service.movedFrom).place place service, session.2) := by
  have moved : Session.Inv (session.1.place old service.movedFrom, session.2) := by
    apply inv.update inv.zero
    · intro other service _ lives
      exact inv.sound other service lives
    · rintro _ ⟨⟩
      exact service.sound_movedFrom _
    · rintro other service' _ _ _ ⟨⟩
      exact service.apart_movedFrom service'
  apply moved.update moved.zero
  · intro other service _ lives
    exact moved.sound other service lives
  · rintro _ ⟨⟩
    exact inv.sound old service alive
  · rintro other service' _ different lives ⟨⟩
    by_cases here : other = old
    · subst here
      obtain rfl := Option.some.inj ((Services.place_self _ _ _).symm.trans lives)
      exact (service.apart_movedFrom service).symm
    · exact inv.apart old other service service' alive
        ((Services.place_of_ne _ here _).symm.trans lives) (Ne.symm here)

/-- A domain receives an object for a subservice. -/
theorem domainSubservice (alive : session.1 self = some service) (held : session.Open service)
    (domain : service.isDomain = true) {object : ℕ}
    (gives : session.2.CanGive (.receiveObject service.mSession object)) :
    Session.Inv (session.1.place place (service.domainSubservice object),
      session.2.setObject service.mSession object .held) := by
  have named : service.mObject ≠ none := Option.isSome_iff_ne_none.mp domain
  have new {other : ℕ} {service' : Service} (lives : session.1 other = some service')
      (same : service'.mSession = service.mSession) : service'.mObject ≠ some object := by
    intro same'
    have old := ((inv.sound other service' lives).object object same').2
    rw [same] at old
    cases gives.symm.trans old
  apply inv.update
  · exact inv.zero
  · intro other service' _ lives
    exact (inv.sound other service' lives).setObject _ (.inl rfl)
  · rintro _ ⟨⟩
    refine ⟨nofun, ?_, fun _ => .inl held, nofun⟩
    rintro _ ⟨⟩
    exact ⟨inv.session_ne_zero held, if_pos ⟨rfl, rfl⟩⟩
  · rintro other service' _ _ lives ⟨⟩ same nonzero
    refine ⟨nofun, ?_, (new lives same.symm).symm, nofun⟩
    by_cases here : other = self
    · subst here
      obtain rfl := Option.some.inj (alive.symm.trans lives)
      exact named
    · exact (inv.apart self other service service' alive lives (Ne.symm here) same nonzero).2.1

/-- A service that is no domain has its session for itself. -/
theorem alone (alive : session.1 self = some service) (plain : service.mObject = none)
    (nonzero : service.mSession ≠ 0) {other : ℕ} {service' : Service} (different : other ≠ self)
    (lives : session.1 other = some service') : service'.mSession ≠ service.mSession :=
  fun same => (inv.apart self other service service' alive lives different.symm same.symm
    nonzero).1 plain

theorem convertToDomain (alive : session.1 self = some service)
    (held : session.Open service) (plain : service.mObject = none) (size : BitVec 16) (object : ℕ) :
    Session.Inv (session.1.place self
        { service with mPointerBufferSize := size, mObject := some object },
      session.2.setObject service.mSession object .held) := by
  have nonzero := inv.session_ne_zero held
  apply inv.update
  · exact inv.zero
  · intro other service' _ lives
    exact (inv.sound other service' lives).setObject _ (.inl rfl)
  · rintro _ ⟨⟩
    refine ⟨fun _ => held, ?_, fun _ => .inl held, nofun⟩
    rintro _ ⟨⟩
    exact ⟨nonzero, if_pos ⟨rfl, rfl⟩⟩
  · rintro other service' _ different lives ⟨⟩ same
    exact absurd same.symm (inv.alone alive plain nonzero different lives)

/-- A handle that is not a domain goes to the caller or is closed. -/
theorem leave (alive : session.1 self = some service) (plain : service.mObject = none)
    (nonzero : service.mSession ≠ 0) (holding : Holding) {value : Option Service}
    (left : ∀ new, value = some new → new = service.movedFrom) :
    Session.Inv (Function.update session.1 self value,
      session.2.setHandle service.mSession holding) := by
  apply inv.update
  · exact (Function.update_of_ne nonzero.symm _ _).trans inv.zero
  · intro other service' different lives
    exact (inv.sound other service' lives).setHandle _
      (inv.alone alive plain nonzero different lives)
  · intro new same
    obtain rfl := left new same
    exact service.sound_movedFrom _
  · intro other service' new _ _ same
    obtain rfl := left new same
    exact service.apart_movedFrom service'

/-- A service without a session goes. -/
theorem vanish (old : Service) {value : Option Service}
    (left : ∀ new, value = some new → new = old.movedFrom) :
    Session.Inv (Function.update session.1 self value, session.2) := by
  apply inv.update inv.zero
  · intro other service' _ lives
    exact inv.sound other service' lives
  · intro new same
    obtain rfl := left new same
    exact old.sound_movedFrom _
  · intro other service' new _ _ same
    obtain rfl := left new same
    exact old.apart_movedFrom service'

/-- A domain goes, and its session with it if it owned that. -/
theorem closeObject (alive : session.1 self = some service) {object : ℕ}
    (named : service.mObject = some object) :
    Session.Inv (Function.update session.1 self none, closedObject session.2 service object) := by
  obtain ⟨nonzero, -⟩ := (inv.sound self service alive).object object named
  have kept {other : ℕ} {service' : Service} (different : other ≠ self)
      (lives : session.1 other = some service') :
      service'.Sound (session.2.setObject service.mSession object .closed) := by
    apply (inv.sound other service' lives).setObject
    by_cases same : service.mSession = service'.mSession
    · have apart := inv.apart self other service service' alive lives different.symm same nonzero
      exact .inr (.inr fun same' => apart.2.2.1 (named.trans same'.symm))
    · exact .inr (.inl (Ne.symm same))
  cases owner : service.mOwnedHandle with
  | false =>
    rw [closedObject, owner]
    apply inv.update
    · exact inv.zero
    · intro other service' different lives
      exact kept different lives
    · exact nofun
    · exact nofun
  | true =>
    rw [closedObject, owner]
    apply inv.update
    · exact (Function.update_of_ne nonzero.symm _ _).trans inv.zero
    · intro other service' different lives
      by_cases same : service.mSession = service'.mSession
      · -- another domain on the session that is closed now
        have apart := inv.apart self other service service' alive lives different.symm same nonzero
        have closed : ((session.2.setObject service.mSession object .closed).setHandle
            service.mSession .closed).handles service'.mSession = .closed := by
          rw [← same]
          exact Function.update_self _ _ _
        refine ⟨fun owned => absurd ⟨owner, owned⟩ apart.2.2.2, (kept different lives).object,
          fun _ => .inr closed, fun _ plain => absurd plain apart.2.1⟩
      · exact (kept different lives).setHandle _ (Ne.symm same)
    · exact nofun
    · exact nofun

theorem request (alive : session.1 self = some service) (held : session.Open service)
    {query : Option (BitVec 16)} {message : Message} (plain : message.closesObject = false)
    {services : Services} {ledger : Ledger}
    (next : (service.invoke query message).2.map (session.1.place self) = some services)
    (recorded : serviceAudit.recordAll session.2 (service.invoke query message).1 = some ledger) :
    Session.Inv (services, ledger) := by
  by_cases sized : service.Sized query
  · obtain ⟨size, invoked⟩ := Service.invoke_of_sized sized message
    rw [invoked] at next recorded
    rw [Service.recordAll_invoke_of_held held, Ledger.record_send_of_held held plain] at recorded
    obtain rfl := Option.some.inj next
    obtain rfl := Option.some.inj recorded
    exact inv.resize alive size
  · rw [Service.invoke_of_not_sized sized] at next
    cases next

/-- A careful call keeps what services know of each other. -/
theorem step (needs : session.Needs call) (stepped : serviceAudit.step session call = some target) :
    target.Inv := by
  obtain ⟨events, -, performed, gives, recorded⟩ := Audit.exists_of_step stepped
  obtain ⟨services, ledger⟩ := target
  cases call with
  | ofHandle place handle =>
    obtain ⟨-, same⟩ := Option.ite_none_right_eq_some.mp performed
    cases same
    obtain rfl := Option.some.inj recorded
    exact inv.receive (gives _ (List.mem_singleton_self _)) rfl rfl
  | fromHandle place handle =>
    obtain ⟨-, same⟩ := Option.ite_none_right_eq_some.mp performed
    cases same
    obtain rfl := Option.some.inj recorded
    exact inv.receive (gives _ (List.mem_singleton_self _)) rfl rfl
  | move place old =>
    obtain ⟨-, same⟩ := Option.ite_none_right_eq_some.mp performed
    obtain ⟨service, alive, same⟩ := Option.map_eq_some_iff.mp same
    cases same
    obtain rfl := Option.some.inj recorded
    exact inv.move alive
  | request self query =>
    obtain ⟨service, alive, same⟩ := Option.map_eq_some_iff.mp performed
    obtain ⟨rfl, next⟩ := Prod.mk.inj same
    exact inv.request alive (needs service alive) rfl next recorded
  | subservice self query place received =>
    obtain ⟨free, same⟩ := Option.ite_none_right_eq_some.mp performed
    obtain ⟨service, alive, -⟩ := Option.map_eq_some_iff.mp same
    have held := needs service alive
    replace performed := (perform_subservice alive free query received).symm.trans performed
    by_cases sized : service.Sized query
    · obtain ⟨size, invoked⟩ := Service.invoke_of_sized sized .request
      rw [invoked] at performed
      cases performed
      have given := gives _ (List.mem_append_right _ (List.mem_singleton_self _))
      rw [Audit.recordAll_append, Service.recordAll_invoke_of_held held,
        Ledger.record_send_of_held held rfl, Option.bind_some, Ledger.recordAll_cons] at recorded
      have resized := inv.resize alive size
      rw [Service.nextSubservice] at recorded given ⊢
      split at recorded
      · rename_i domain
        rw [if_pos domain] at given ⊢
        obtain rfl := Option.some.inj recorded
        exact resized.domainSubservice (Services.place_self _ _ _) held domain given
      · rename_i domain
        rw [if_neg domain] at given ⊢
        obtain rfl := Option.some.inj recorded
        exact resized.receive given rfl rfl
    · rw [Service.invoke_of_not_sized sized] at performed
      cases performed
  | convertToDomain self query object =>
    obtain ⟨service, alive, same⟩ := Option.map_eq_some_iff.mp performed
    obtain ⟨rfl, next⟩ := Prod.mk.inj same
    obtain ⟨held, plain⟩ := needs service alive
    change serviceAudit.recordAll session.2 (service.convertToDomain query object).1 = _ at recorded
    change (service.convertToDomain query object).2.map (session.1.place self) = _ at next
    by_cases sized : service.Sized query
    · cases object with
      | none =>
        rw [Service.convertToDomain_none] at next recorded
        exact inv.request alive held rfl next recorded
      | some name =>
        obtain ⟨size, converted⟩ := Service.convertToDomain_of_sized sized name
        rw [converted] at next recorded
        rw [Audit.recordAll_append, Service.recordAll_invoke_of_held held,
          Ledger.record_send_of_held held rfl] at recorded
        obtain rfl := Option.some.inj next
        obtain rfl := Option.some.inj recorded
        exact inv.convertToDomain alive held (plain sized (Option.some_ne_none name)) size name
    · rw [Service.convertToDomain_of_not_sized sized] at next recorded
      exact inv.request alive held rfl next recorded
  | toHandle self =>
    obtain ⟨service, alive, same⟩ := Option.map_eq_some_iff.mp performed
    have plain := needs service alive
    cases same
    by_cases zero : service.mSession = 0
    · rw [if_pos zero] at recorded
      obtain rfl := Option.some.inj recorded
      exact inv.vanish service fun new same => (Option.some.inj same).symm
    · have held := (inv.sound self service alive).plain zero plain
      rw [if_neg zero, Ledger.recordAll_cons, Ledger.record, if_pos held] at recorded
      obtain rfl := Option.some.inj recorded
      exact inv.leave alive plain zero .released fun new same => (Option.some.inj same).symm
  | destroy self query answered =>
    obtain ⟨service, alive, same⟩ := Option.map_eq_some_iff.mp performed
    obtain ⟨rfl, next⟩ := Prod.mk.inj same
    obtain ⟨-, domain⟩ := needs service alive
    change serviceAudit.recordAll session.2 (service.destroy query answered).1 = _ at recorded
    change (if (service.destroy query answered).2 then
      some (Function.update session.1 self none) else none) = _ at next
    have sound := inv.sound self service alive
    by_cases closes : service.Closes
    · have held : session.Open service := by
        rcases closes with owned | some
        · exact sound.owned owned
        · exact (domain some).1
      by_cases sized : service.Sized query
      · rw [Service.destroy_of_sized closes sized] at next recorded
        obtain rfl := Option.some.inj next
        cases named : service.mObject with
        | none =>
          have owned : service.mOwnedHandle = true := by
            rcases closes with owned | some
            · exact owned
            · exact absurd named some
          have closed := recordAll_destroy_of_plain held owned named answered
          obtain rfl := Option.some.inj (closed.symm.trans recorded)
          exact inv.leave alive named (inv.session_ne_zero held) .closed nofun
        | some object =>
          rw [recordAll_destroy_of_object held named (sound.object object named).2] at recorded
          obtain ⟨-, same⟩ := Option.ite_none_right_eq_some.mp recorded
          obtain rfl := Option.some.inj same
          exact inv.closeObject alive named
      · rw [Service.destroy_of_not_sized closes sized] at next
        cases next
    · rw [Service.destroy_of_not_closes closes] at next recorded
      obtain rfl := Option.some.inj next
      obtain rfl := Option.some.inj recorded
      exact inv.vanish service nofun

end Inv

theorem inv_start : start.Inv where
  zero := rfl
  sound _ _ alive := nomatch alive
  apart _ _ _ _ alive := nomatch alive

theorem accounted_start : Accounted start.1 start.2 :=
  ⟨fun _ held => (nomatch held), fun _ _ held => (nomatch held)⟩

/-- From no services on all calls are correct exactly when all of them are careful. -/
theorem runMeets_owned_iff (calls : List ServiceCall) :
    RunMeets serviceAudit.step serviceAudit.Correct start calls ↔
      RunMeets serviceAudit.step Careful start calls := by
  apply Audit.runMeets_correct_iff_needs Session.Inv
  · intro session call accounted inv
    exact correct_iff_careful accounted inv call
  · intro session call target inv needs stepped
    exact inv.step needs stepped
  · exact accounted_start
  · exact inv_start

/-- The session of a subservice is not closed when the subservice is destroyed. -/
theorem not_runMeets_owned : ¬ RunMeets serviceAudit.step serviceAudit.Correct start
    [.ofHandle 0 1, .subservice 0 (some 0x100) 1 2, .destroy 1 none true] := by
  rintro ⟨-, rest⟩
  obtain ⟨-, rest⟩ := rest _ rfl
  obtain ⟨correct, -⟩ := rest _ rfl
  obtain ⟨ledger, recorded, refers⟩ := correct _ _ rfl
  obtain rfl := Option.some.inj recorded
  obtain ⟨self, service, alive, same⟩ := (refers _ rfl).handles 2 rfl
  match self, alive with
  | 0, alive =>
    obtain rfl := Option.some.inj alive
    cases same
  | 1, alive => cases alive
  | other + 2, alive => cases alive

end Session

end Hakkun.Sf
