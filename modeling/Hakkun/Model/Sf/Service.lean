import Mathlib.Data.Nat.Notation
import Mathlib.Logic.Function.Basic

/-! # Services

Translated from `Service` and `Response::nextSubservice` in `hk/sf/sf.h` and from `hk/sf/sf.cpp`.
A handle stands for its receipt from the kernel, so the same number received twice is two handles;
0 is no handle. Objects of a session are named the same way. What the kernel and the server answer
is given with each call, and a call notes what it exchanged with the kernel.
-/

namespace Hakkun.Sf

/-- What is in the message buffer when it is sent. -/
inductive Message where
  | queryPointerBufferSize
  | convertToDomain
  | request
  | closeObject (object : ℕ)
  | close
  /-- The answer to the message before. -/
  | reply
  deriving DecidableEq

inductive Event where
  | receive (handle : ℕ)
  | receiveObject (session object : ℕ)
  /-- `svc::SendSyncRequest`. -/
  | send (session : ℕ) (message : Message)
  /-- `svc::CloseHandle`. -/
  | close (handle : ℕ)
  /-- A handle that `toHandle` returned. -/
  | release (handle : ℕ)
  deriving DecidableEq

structure Service where
  mSession : ℕ
  mObject : Option ℕ
  mOwnedHandle : Bool
  mPointerBufferSize : BitVec 16 := -1
  deriving DecidableEq

namespace Service

/-- The constructor from a handle. -/
def ofHandle (handle : ℕ) : Service := { mSession := handle, mObject := none, mOwnedHandle := true }

def fromHandle (session : ℕ) : Service :=
  { mSession := session, mObject := none, mOwnedHandle := false }

def domainSubservice (parent : Service) (object : ℕ) : Service :=
  ⟨parent.mSession, some object, false, parent.mPointerBufferSize⟩

/-- A service that was moved away. -/
def movedFrom (old : Service) : Service :=
  { old with mSession := 0, mOwnedHandle := false, mObject := none }

def isDomain (service : Service) : Bool := service.mObject.isSome

/-- `pointerBufferSize`, which aborts when the server does not tell. -/
def pointerBufferSize (service : Service) (query : Option (BitVec 16)) :
    List Event × Option Service :=
  if service.mPointerBufferSize ≠ -1 then ([], some service)
  else ([.send service.mSession .queryPointerBufferSize],
    query.map fun size => { service with mPointerBufferSize := size })

/-- A `Request` that is made and sent. -/
def invoke (service : Service) (query : Option (BitVec 16)) (message : Message) :
    List Event × Option Service :=
  match service.pointerBufferSize query with
  | (events, none) => (events, none)
  | (events, some service) => (events ++ [.send service.mSession message], some service)

/-- `Response::nextSubservice`, with the event of receiving it. -/
def nextSubservice (service : Service) (received : ℕ) : Event × Service :=
  if service.isDomain then
    (.receiveObject service.mSession received, domainSubservice service received)
  else (.receive received, fromHandle received)

/-- `convertToDomain`, with the object of a success. -/
def convertToDomain (service : Service) (query : Option (BitVec 16)) (object : Option ℕ) :
    List Event × Option Service :=
  match service.invoke query .convertToDomain, object with
  | (events, some service), some object =>
    (events ++ [.receiveObject service.mSession object], some { service with mObject := some object })
  | result, _ => result

/-- The message of `release`. -/
def releaseMessage (service : Service) : Message :=
  match service.mObject with
  | some object => .closeObject object
  | none => .close

/-- The destructor; a message that is not answered stays in the buffer. The result is whether it
did not abort. -/
def destroy (service : Service) (query : Option (BitVec 16)) (answered : Bool) :
    List Event × Bool :=
  if service.mOwnedHandle || service.mObject.isSome then
    match service.invoke query service.releaseMessage with
    | (events, none) => (events, false)
    | (events, some _) =>
      (events ++
        [.send service.mSession (if answered then .reply else service.releaseMessage)] ++
        if service.mOwnedHandle then [.close service.mSession] else [], true)
  else ([], true)

end Service

/-- The services that are alive. -/
abbrev Services := ℕ → Option Service

/-- A call on a service, with a place for each service that it makes. -/
inductive ServiceCall where
  | ofHandle (place handle : ℕ)
  | fromHandle (place handle : ℕ)
  | move (place old : ℕ)
  | request (self : ℕ) (query : Option (BitVec 16))
  | subservice (self : ℕ) (query : Option (BitVec 16)) (place received : ℕ)
  | convertToDomain (self : ℕ) (query : Option (BitVec 16)) (object : Option ℕ)
  | toHandle (self : ℕ)
  | destroy (self : ℕ) (query : Option (BitVec 16)) (answered : Bool)

namespace Services

/-- A new service at a place that is free. -/
def place (services : Services) (place : ℕ) (service : Service) : Services :=
  Function.update services place (some service)

/-- What a call exchanges with the kernel, and the services after it unless it aborts. There is no
result when a service is not alive or a place not free. -/
def perform (services : Services) : ServiceCall → Option (List Event × Option Services)
  | .ofHandle place handle =>
    if services place = none then
      some ([.receive handle], some (services.place place (.ofHandle handle)))
    else none
  | .fromHandle place handle =>
    if services place = none then
      some ([.receive handle], some (services.place place (.fromHandle handle)))
    else none
  | .move place old =>
    if services place = none then
      (services old).map fun service =>
        ([], some ((services.place old service.movedFrom).place place service))
    else none
  | .request self query =>
    (services self).map fun service =>
      (service.invoke query .request).map id fun next => next.map (services.place self)
  | .subservice self query place received =>
    if services place = none then
      (services self).map fun service =>
        match service.invoke query .request with
        | (events, none) => (events, none)
        | (events, some next) =>
          let (event, subservice) := next.nextSubservice received
          (events ++ [event], some ((services.place self next).place place subservice))
    else none
  | .convertToDomain self query object =>
    (services self).map fun service =>
      (service.convertToDomain query object).map id fun next => next.map (services.place self)
  | .toHandle self =>
    (services self).map fun service =>
      (if service.mSession = 0 then [] else [.release service.mSession],
        some (services.place self service.movedFrom))
  | .destroy self query answered =>
    (services self).map fun service =>
      let (events, done) := service.destroy query answered
      (events, if done then some (Function.update services self none) else none)

end Services

end Hakkun.Sf
