import Hakkun.Model.Core.Integer
import Hakkun.Model.Util.Algorithm

/-! # Maps and sets

Translated from `hk/container/Map.h` and `hk/container/Set.h`. The entries are a vector that is
kept in the order of their hashes; an entry is located by a binary search for a hash alone. A
pointer to an entry is its index. `none` is an abort, or a search without a defined result.
-/

namespace Hakkun.Container

/-- `SpanOperationsBase::binarySearch`; `-1` is the largest `size`. -/
def binarySearch {T : Type} (entries : List T) (getValue : T → U64) (searchValue : U64)
    (findBetween : Bool) : Option ℤ :=
  Util.binarySearch (fun index => entries[index]?.map fun entry => (getValue entry).toNat) 0
    (Util.toS32 (entries.length - 1)) searchValue.toNat findBetween

/-- The range check of `VecType::at`. -/
def checkAt {T : Type} (entries : List T) (index : ℤ) : Option ℕ :=
  if index.toNat < entries.length then some index.toNat else none

/-- `VecType::insert` of a temporary. -/
def vecInsert {T : Type} (entries : List T) (value : T) (index : ℤ) : Option (List T) :=
  if index.toNat ≤ entries.length then some (entries.insertIdx index.toNat value) else none

namespace Map

variable {K V : Type} (hash : K → U64) (entries : List (K × V))

def binarySearchByHash (value : U64) (findBetween : Bool) : Option ℤ :=
  Container.binarySearch entries (fun pair => hash pair.1) value findBetween

def binarySearch (key : K) (findBetween : Bool) : Option ℤ :=
  binarySearchByHash hash entries (hash key) findBetween

/-- `checkInsert`; "key already exists" is an abort. -/
def checkInsert (key : K) : Option Unit := do
  let found ← binarySearch hash entries key false
  guard (found = -1)

/-- `find`; a null pointer is `none`. -/
def find (key : K) : Option (Option ℕ) := do
  let foundIdx ← binarySearch hash entries key false
  if foundIdx = -1 then return none
  return some (← checkAt entries foundIdx)

/-- `insert`, and the index of the new pair. -/
def insert (key : K) (value : V) : Option (ℕ × List (K × V)) := do
  checkInsert hash entries key
  let insertIdx ← binarySearch hash entries key true
  let entries ← vecInsert entries (key, value) insertIdx
  return (insertIdx.toNat, entries)

/-- `at`; "key not found" is an abort. -/
def at_ (key : K) : Option ℕ := do
  let value ← find hash entries key
  value

/-- `remove`; `ResultNoValue` is `none`. -/
def remove (key : K) : Option (Option (K × V) × List (K × V)) := do
  let index ← binarySearch hash entries key false
  if index = -1 then return (none, entries)
  let index ← checkAt entries index
  return (entries[index]?, entries.eraseIdx index)

/-- `operator[]`; an absent key gets the default value. -/
def index [Inhabited V] (key : K) : Option (ℕ × List (K × V)) := do
  match ← find hash entries key with
  | some value => return (value, entries)
  | none => insert hash entries key default

/-- A use of a map; an `assign` stores through the reference that `operator[]` returns. -/
inductive Call (K V : Type) where
  | insert (key : K) (value : V)
  | index (key : K)
  | assign (key : K) (value : V)
  | find (key : K)
  | at_ (key : K)
  | remove (key : K)
  | forEach

/-- What a call returns; a pointer or a reference is read at once. -/
inductive Outcome (K V : Type) where
  | done
  | value (value : Option V)
  | removed (pair : Option (K × V))
  | visited (pairs : List (K × V))

variable {hash entries}

/-- The value that a reference refers to. -/
def deref (entries : List (K × V)) (place : ℕ) : Option V := entries[place]?.map Prod.snd

/-- A store to the value that a reference refers to. -/
def store (entries : List (K × V)) (place : ℕ) (value : V) : List (K × V) :=
  entries.modify place fun pair => (pair.1, value)

variable (hash entries)

def call [Inhabited V] : Call K V → Option (Outcome K V × List (K × V))
  | .insert key value => do
    let (_, entries) ← insert hash entries key value
    return (.done, entries)
  | .index key => do
    let (place, entries) ← index hash entries key
    return (.value (deref entries place), entries)
  | .assign key value => do
    let (place, entries) ← index hash entries key
    return (.done, store entries place value)
  | .find key => do
    let place ← find hash entries key
    return (.value (place.bind (deref entries)), entries)
  | .at_ key => do
    let place ← at_ hash entries key
    return (.value (deref entries place), entries)
  | .remove key => do
    let (pair, entries) ← remove hash entries key
    return (.removed pair, entries)
  | .forEach => some (.visited entries, entries)

def step [Inhabited V] (entries : List (K × V)) (label : Call K V) : Option (List (K × V)) :=
  (call hash entries label).map Prod.snd

end Map

namespace Set

variable {T : Type} (hash : T → U64) (entries : List (U64 × T))

def binarySearch (value : T) (findBetween : Bool) : Option ℤ :=
  Container.binarySearch entries Prod.fst (hash value) findBetween

def checkCanInsert (value : T) : Option Bool := do
  let found ← binarySearch hash entries value false
  return found = -1

/-- `find`; a null pointer is `none`. -/
def find (key : T) : Option (Option ℕ) := do
  let foundIdx ← binarySearch hash entries key false
  if foundIdx = -1 then return none
  return some (← checkAt entries foundIdx)

/-- `insert`; a null pointer says that the value is there already. -/
def insert (value : T) : Option (Option ℕ × List (U64 × T)) := do
  if !(← checkCanInsert hash entries value) then return (none, entries)
  let insertIdx ← binarySearch hash entries value true
  let entries ← vecInsert entries (hash value, value) insertIdx
  return (some insertIdx.toNat, entries)

/-- `at`; "key not found" is an abort. -/
def at_ (key : T) : Option ℕ := do
  let value ← find hash entries key
  value

/-- `remove`; `ResultNoValue` is `none`. -/
def remove (key : T) : Option (Option T × List (U64 × T)) := do
  let index ← binarySearch hash entries key false
  if index = -1 then return (none, entries)
  let index ← checkAt entries index
  return (entries[index]?.map Prod.snd, entries.eraseIdx index)

/-- A use of a set. Its `operator[]` calls an `insert` of two arguments, which there is none of. -/
inductive Call (T : Type) where
  | insert (value : T)
  | find (key : T)
  | at_ (key : T)
  | remove (key : T)
  | forEach

/-- What a call returns; a pointer or a reference is read at once. -/
inductive Outcome (T : Type) where
  | value (value : Option T)
  | visited (values : List T)

/-- The value that a reference refers to. -/
def deref (entries : List (U64 × T)) (place : ℕ) : Option T := entries[place]?.map Prod.snd

def call : Call T → Option (Outcome T × List (U64 × T))
  | .insert value => do
    let (place, entries) ← insert hash entries value
    return (.value (place.bind (deref entries)), entries)
  | .find key => do
    let place ← find hash entries key
    return (.value (place.bind (deref entries)), entries)
  | .at_ key => do
    let place ← at_ hash entries key
    return (.value (deref entries place), entries)
  | .remove key => do
    let (value, entries) ← remove hash entries key
    return (.value value, entries)
  | .forEach => some (.visited (entries.map Prod.snd), entries)

def step (entries : List (U64 × T)) (label : Call T) : Option (List (U64 × T)) :=
  (call hash entries label).map Prod.snd

end Set

end Hakkun.Container
