import Hakkun.Machine.Core.Run
import Hakkun.Model.Core.Integer
import Mathlib.Logic.Function.Basic

/-! # Tagged unions

Translated from `hk/container/OneOf.h`. An alternative is its index in the type list. What the
storage holds is an object of some alternative with an identity of its own; constructing one gives
it the next identity, and a destructor call is recorded. Every special member moves the tag and the
storage separately, as the source does.
-/

namespace Hakkun.Container

/-- The storage and the tag of a `OneOf`. -/
structure OneOf where
  mType : ℕ := 0
  mValue : Option (ℕ × ℕ) := none

/-- All `OneOf` objects of a program, and the history of the alternative objects in them. -/
structure World (Var : Type*) where
  objects : Var → Option OneOf := fun _ => none
  constructed : ℕ := 0
  destroyed : List ℕ := []
  /-- An alternative was accessed whose object the storage did not hold. -/
  misread : Bool := false

namespace OneOf

/-- `TypeEnum_Start`. -/
def typeEnumStart : ℕ := 1

/-- `toIndex`; the tag of nothing gives the largest `size`. -/
def toIndex (value : OneOf) : U64 := BitVec.ofInt 64 (value.mType - typeEnumStart)

def hasValue (value : OneOf) : Bool := value.mType != 0

end OneOf

/-- The recursion of `OneOfOperations` over the type list: the first alternative whose index is the
current one does its part. -/
def byIndex {σ : Type*} (isMe : U64 → Bool) (action : ℕ → σ → σ) : ℕ → ℕ → σ → σ
  | 0, _, state => state
  | left + 1, index, state =>
    if isMe (BitVec.ofNat 64 index) then action index state
    else byIndex isMe action left (index + 1) state

namespace World

variable {Var : Type*} [DecidableEq Var]

/-- A change of one `OneOf`. -/
def modify (world : World Var) (var : Var) (change : OneOf → OneOf) : World Var :=
  { world with objects := Function.update world.objects var ((world.objects var).map change) }

def get (world : World Var) (var : Var) : OneOf := (world.objects var).getD {}

/-- `setIndex`, or a store to `mType`. -/
def setType (world : World Var) (var : Var) (type : ℕ) : World Var :=
  world.modify var fun value => { value with mType := type }

/-- `constructAt<Index>`: a new object in the storage, whatever is there. -/
def constructAt (world : World Var) (var : Var) (index : ℕ) : World Var :=
  { world.modify var fun value => { value with mValue := some (index, world.constructed) } with
    constructed := world.constructed + 1 }

/-- `*grabMine()`: an access to the alternative at an index. -/
def grab (world : World Var) (var : Var) (index : ℕ) : World Var :=
  { world with misread := world.misread || ((world.get var).mValue.map Prod.fst != some index) }

/-- `grabMine()->~Mine()`. -/
def destruct (world : World Var) (var : Var) (index : ℕ) : World Var :=
  let world := world.grab var index
  match (world.get var).mValue with
  | some (_, id) =>
    { world.modify var fun value => { value with mValue := none } with
      destroyed := id :: world.destroyed }
  | none => world

variable (Types : U64)

/-- `isMe`. -/
def isMe (world : World Var) (var : Var) (index : U64) : Bool := (world.get var).toIndex == index

def destroyByIndex (world : World Var) (var : Var) : World Var :=
  byIndex (world.isMe var) (fun index world => world.destruct var index) Types.toNat 0 world

/-- `copyConstructByIndex`; `moveConstructByIndex` constructs from the same object. -/
def copyConstructByIndex (world : World Var) (var target : Var) : World Var :=
  byIndex (world.isMe var) (fun index world => (world.grab var index).constructAt target index)
    Types.toNat 0 world

def moveConstructByIndex (world : World Var) (var target : Var) : World Var :=
  byIndex (world.isMe var) (fun index world => (world.grab var index).constructAt target index)
    Types.toNat 0 world

def constructDefaultByIndex (world : World Var) (var : Var) : World Var :=
  byIndex (world.isMe var) (fun index world => world.constructAt var index) Types.toNat 0 world

def destroy (world : World Var) (var : Var) : World Var :=
  let has := (world.get var).hasValue
  let world := world.setType var 0
  if has then world.destroyByIndex Types var else world

/-- `construct` of an alternative from a value. -/
def construct (world : World Var) (var : Var) (index : ℕ) : World Var :=
  let world := world.destroy Types var
  let world := world.constructAt var index
  world.setType var (OneOf.typeEnumStart + index)

/-- A new `OneOf` with a tag, before its constructor's body. -/
def allocate (world : World Var) (var : Var) (type : ℕ) : World Var :=
  { world with objects := Function.update world.objects var (some { mType := type }) }

/-- The destructor. -/
def release (world : World Var) (var : Var) : World Var :=
  let world := world.destroy Types var
  { world with objects := Function.update world.objects var none }

end World

/-- What a program does with `OneOf` objects. An assignment from a value constructs a temporary
`OneOf` and moves from it. -/
inductive OneOfCall (Var : Type*) where
  | constructNone (var : Var)
  | constructType (var : Var) (type : ℕ)
  | constructValue (var : Var) (index : ℕ)
  | copyConstruct (var other : Var)
  | moveConstruct (var old : Var)
  | copyAssign (var other : Var)
  | moveAssign (var other : Var)
  | assignValue (var temporary : Var) (index : ℕ)
  | read (var : Var) (index : ℕ)
  | destruct (var : Var)

namespace OneOfCall

variable {Var : Type*} [DecidableEq Var] (Types : U64)

/-- Whether a program can make a call: what it constructs does not exist yet, what it uses does, and
an alternative or a tag is one of the type list's. -/
def Allowed (world : World Var) : OneOfCall Var → Prop
  | .constructNone var => world.objects var = none
  | .constructType var type => world.objects var = none ∧ type ≤ Types.toNat
  | .constructValue var index => world.objects var = none ∧ index < Types.toNat
  | .copyConstruct var other | .moveConstruct var other =>
    world.objects var = none ∧ world.objects other ≠ none
  | .copyAssign var other | .moveAssign var other =>
    world.objects var ≠ none ∧ world.objects other ≠ none
  | .assignValue var temporary index => world.objects var ≠ none ∧
    world.objects temporary = none ∧ index < Types.toNat
  | .read var index => world.objects var ≠ none ∧ index < Types.toNat
  | .destruct var => world.objects var ≠ none

instance (world : World Var) (call : OneOfCall Var) : Decidable (call.Allowed Types world) := by
  cases call <;> unfold Allowed <;> infer_instance

/-- The effect of a call. -/
def run (world : World Var) : OneOfCall Var → World Var
  | .constructNone var => world.allocate var 0
  | .constructType var type => (world.allocate var type).constructDefaultByIndex Types var
  | .constructValue var index => (world.allocate var 0).construct Types var index
  | .copyConstruct var other =>
    (world.allocate var (world.get other).mType).copyConstructByIndex Types other var
  | .moveConstruct var old =>
    let world := world.allocate var (world.get old).mType
    let world := world.moveConstructByIndex Types old var
    world.destroy Types old
  | .copyAssign var other =>
    let world := world.setType var (world.get other).mType
    world.copyConstructByIndex Types other var
  | .moveAssign var other =>
    let world := world.setType var (world.get other).mType
    let world := world.moveConstructByIndex Types other var
    world.destroy Types other
  | .assignValue var temporary index =>
    let world := (world.allocate temporary 0).construct Types temporary index
    let world := world.setType var (world.get temporary).mType
    let world := world.moveConstructByIndex Types temporary var
    let world := world.destroy Types temporary
    world.release Types temporary
  | .read var index =>
    -- `checkMe` aborts and `operator Mine*` is null when the alternative is another one
    if world.isMe var (BitVec.ofNat 64 index) then world.grab var index else world
  | .destruct var => world.release Types var

/-- A call of a program. -/
def step (world : World Var) (call : OneOfCall Var) : Option (World Var) :=
  if call.Allowed Types world then some (call.run Types world) else none

end OneOfCall

end Hakkun.Container
