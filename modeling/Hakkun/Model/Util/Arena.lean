import Hakkun.Model.Core.Integer

/-! # Arena

Translated from `hk/util/Arena.h`. The entries are the contents of the vector in order. A history
pairs an arena with the events so far, the newest first.
-/

namespace Hakkun.Util

/-- `Arena<T>`. -/
structure Arena (T : Type) where
  mEntries : List (U32 × T) := []
  mCurrentKey : U32 := 0

namespace Arena

variable {T : Type}

def add (arena : Arena T) (value : T) : U32 × Arena T :=
  let key := arena.mCurrentKey
  (key, ⟨arena.mEntries ++ [(key, value)], arena.mCurrentKey + 1⟩)

/-- `get`; `none` is the abort for a key that is not found. -/
def get (arena : Arena T) (key : U32) : Option T :=
  (arena.mEntries.find? fun entry => entry.1 = key).map Prod.snd

def has (arena : Arena T) (key : U32) : Bool := arena.mEntries.any fun entry => entry.1 = key

/-- The loop of `drop`, which removes the first entry with the key. -/
def drop (arena : Arena T) (key : U32) : Arena T :=
  { arena with mEntries := arena.mEntries.eraseP fun entry => entry.1 = key }

inductive Call (T : Type) where
  | add (value : T)
  | drop (key : U32)

inductive Event (T : Type) where
  | added (key : U32) (value : T)
  | dropped (key : U32)

/-- An arena and what was done with it. -/
structure History (T : Type) where
  arena : Arena T := {}
  log : List (Event T) := []

def History.step (history : History T) : Call T → History T
  | .add value =>
    let (key, arena) := history.arena.add value
    ⟨arena, .added key value :: history.log⟩
  | .drop key => ⟨history.arena.drop key, .dropped key :: history.log⟩

/-- The history after a sequence of calls. -/
def History.of (calls : List (Call T)) : History T := calls.foldl History.step {}

end Arena

end Hakkun.Util
