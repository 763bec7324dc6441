import Hakkun.Model.Container.Vec
import Mathlib.Logic.Function.Basic

/-! # Vector objects

The special members of `FixedVec` and of `VecOperationsOnHeap`, over all vector objects of a program
and the memory that they share. The storage of a `FixedVec` is a block of its own that begins and
ends with the object.
-/

namespace Hakkun.Container

open Machine Util

namespace Vec

variable {T : Type} (type : ObjectType T) (grants : ℕ → ℕ → Bool) (memory : Memory T) (vec : Vec)

/-- The constructor of a `FixedVec` from a span; the storage is there already. -/
def constructData (data : Span T) : Memory T × Vec :=
  let vec := { vec with mSize := min data.size vec.mCapacity }
  (constructCopy type memory (vec.element 0) data.data vec.mSize, vec)

/-- The move constructor of a `FixedVec`. -/
def constructMoved (other : Vec) : Memory T × Vec :=
  let vec := { vec with mSize := min other.mSize vec.mCapacity }
  (constructMove type memory (vec.element 0) (other.element 0) vec.mSize, vec)

/-- `setCopy` of a `FixedVec`. -/
def fixedSetCopy (data : Span T) : Memory T × Vec :=
  let vec := { vec with mSize := min data.size vec.mCapacity }
  (copy type memory (vec.element 0) data.data vec.mSize, vec)

/-- `setMove` of a `FixedVec`. -/
def fixedSetMove (other : Vec) : Memory T × Vec :=
  let vec := { vec with mSize := min other.mSize vec.mCapacity }
  (Util.move type memory (vec.element 0) (other.element 0) vec.mSize, vec)

/-- `SpanOperations::setMove`. It is what the special members of a `Vec` call: they name the other
vector, which is no rvalue then, so that `VecOperationsOnHeap::setMove` does not take it. -/
def spanSetMove (other : Vec) : Memory T × Vec :=
  let amount := min vec.mSize other.mSize
  (Util.move type memory (vec.element 0) (other.element 0) amount, vec)

/-- `VecOperationsOnHeap(size numElements)`. -/
def constructSize [Inhabited T] (ReserveSize numElements : ℕ) : Option (Memory T × Vec) :=
  (allocate type memory grants numElements ReserveSize).map fun (data, memory) =>
    let vec := { vec with mData := data, mSize := numElements }
    let vec := { vec with mCapacity := max numElements ReserveSize }
    (construct type memory (vec.element 0) numElements, vec)

/-- `VecOperationsOnHeap(const T* data, size size)`; the capacity stays what it is. -/
def constructHeapData (data : Span T) : Option (Memory T × Vec) :=
  (allocate type memory grants data.size data.size).map fun (newData, memory) =>
    let vec := { vec with mData := newData, mSize := data.size }
    (constructCopy type memory (vec.element 0) data.data data.size, vec)

/-- `VecOperationsOnHeap::setCopy`. -/
def setCopy (data : Span T) (capacity : ℕ) : Option (Memory T × Vec) :=
  let capacity := if capacity = 2 ^ 64 - 1 then data.size else capacity
  let (memory, vec) := Base.clear type memory vec
  (allocate type memory grants data.size capacity).map fun (newData, memory) =>
    let vec := { vec with mData := newData, mSize := data.size }
    let vec := { vec with mCapacity := capacity }
    (constructCopy type memory (vec.element 0) data.data data.size, vec)

end Vec

/-- The vector objects of a program, and the memory. -/
structure VecWorld (Var T : Type) where
  memory : Memory T := {}
  objects : Var → Option Vec := fun _ => none

/-- What a program does with vector objects; a `setCopy` or a `setMove` is of a `Vec`. -/
inductive VecCall (Var T : Type) where
  | constructFixed (var : Var) (Capacity : ℕ)
  | constructFixedSize (var : Var) (Capacity numElements : ℕ)
  | constructFixedData (var : Var) (Capacity : ℕ) (data : SpanOperand Var T)
  | constructVec (var : Var) (numElements : ℕ)
  | constructVecData (var : Var) (data : SpanOperand Var T)
  | copyConstruct (var other : Var)
  | moveConstruct (var other : Var)
  | copyAssign (var other : Var)
  | moveAssign (var other : Var)
  | setCopy (var : Var) (data : SpanOperand Var T) (capacity : ℕ)
  | setMove (var other : Var)
  | operate (var : Var) (operation : Operation Var T)
  | destruct (var : Var)

namespace VecWorld

variable {Var T : Type} [DecidableEq Var] (type : ObjectType T) (grants : ℕ → ℕ → Bool)

/-- The object of a variable; a variable without one is not accessed. -/
def vec (world : VecWorld Var T) (var : Var) : Vec := (world.objects var).getD { storage := .vec }

def size (world : VecWorld Var T) (var : Var) : ℕ := (world.vec var).mSize

/-- Another object in a variable, and another memory. -/
def put (world : VecWorld Var T) (var : Var) (state : Memory T × Vec) : VecWorld Var T where
  memory := state.1
  objects := Function.update world.objects var (some state.2)

/-- The storage of a new `FixedVec`. -/
def newFixed (world : VecWorld Var T) (Capacity : ℕ) : Memory T × Vec :=
  let (block, memory) := world.memory.allocate Capacity
  (memory, { storage := .fixedVec, mData := block, mCapacity := Capacity })

/-- `VecOperationsOnHeap::setMove`; both may be the same object. -/
def setMove (world : VecWorld Var T) (var other : Var) : VecWorld Var T :=
  let old := world.vec other
  let world := world.put var (world.memory,
    { world.vec var with mData := old.mData, mSize := old.mSize, mCapacity := old.mCapacity })
  world.put other (world.memory, { world.vec other with mData := 0, mSize := 0, mCapacity := 0 })

/-- The destructor. -/
def release (world : VecWorld Var T) (var : Var) : VecWorld Var T :=
  let (memory, vec) := Vec.Base.clear type world.memory (world.vec var)
  { memory := match vec.storage with
      | .vec => vec.free memory
      | _ => memory.free vec.mData
    objects := Function.update world.objects var none }

end VecWorld

namespace VecCall

variable {Var T : Type} [DecidableEq Var] (type : ObjectType T) (grants : ℕ → ℕ → Bool)

/-- Two vectors of one type. -/
def SameType (vec other : Vec) : Prop :=
  vec.storage = other.storage ∧ (vec.storage = .fixedVec → vec.mCapacity = other.mCapacity)

instance (vec other : Vec) : Decidable (SameType vec other) :=
  inferInstanceAs (Decidable (_ ∧ (_ → _)))

/-- Whether a program can make a call: what it constructs does not exist yet, what it uses does, and
an assignment is between objects of one type. -/
def Allowed (world : VecWorld Var T) : VecCall Var T → Prop
  | .constructFixed var _ | .constructFixedSize var _ _ | .constructVec var _ =>
    world.objects var = none
  | .constructFixedData var _ data | .constructVecData var data =>
    world.objects var = none ∧ data.Allowed world.size
  | .copyConstruct var other | .moveConstruct var other =>
    world.objects var = none ∧ world.objects other ≠ none
  | .copyAssign var other | .moveAssign var other =>
    world.objects var ≠ none ∧ world.objects other ≠ none ∧
      SameType (world.vec var) (world.vec other)
  | .setCopy var data _ =>
    world.objects var ≠ none ∧ (world.vec var).storage = .vec ∧ data.Allowed world.size
  | .setMove var other =>
    world.objects var ≠ none ∧ world.objects other ≠ none ∧ (world.vec var).storage = .vec ∧
      (world.vec other).storage = .vec
  | .operate var operation => world.objects var ≠ none ∧ operation.Allowed world.size
  | .destruct var => world.objects var ≠ none

instance (world : VecWorld Var T) (call : VecCall Var T) : Decidable (call.Allowed world) := by
  cases call <;> unfold Allowed <;> infer_instance

/-- The effect of a call. -/
def run [Inhabited T] (ReserveSize : ℕ) (world : VecWorld Var T) :
    VecCall Var T → Option (VecWorld Var T)
  | .constructFixed var Capacity => some (world.put var (world.newFixed Capacity))
  | .constructFixedSize var Capacity numElements =>
    let (memory, vec) := world.newFixed Capacity
    (Vec.Base.resize type memory vec numElements (.temporary default)).map (world.put var)
  | .constructFixedData var Capacity data =>
    let (memory, vec) := world.newFixed Capacity
    some (world.put var (vec.constructData type memory (data.resolve world.vec)))
  | .constructVec var numElements =>
    (Vec.constructSize type grants world.memory { storage := .vec } ReserveSize numElements).map
      (world.put var)
  | .constructVecData var data =>
    (Vec.constructHeapData type grants world.memory { storage := .vec }
      (data.resolve world.vec)).map (world.put var)
  | .copyConstruct var other =>
    match (world.vec other).storage with
    | .vec =>
      (Vec.setCopy type grants world.memory { storage := .vec } (world.vec other).span
        (world.vec other).mCapacity).map (world.put var)
    | _ =>
      let (memory, vec) := world.newFixed (world.vec other).mCapacity
      some (world.put var (vec.constructData type memory (world.vec other).span))
  | .moveConstruct var other =>
    match (world.vec other).storage with
    | .vec =>
      some (world.put var (Vec.spanSetMove type world.memory { storage := .vec } (world.vec other)))
    | _ =>
      let (memory, vec) := world.newFixed (world.vec other).mCapacity
      some (world.put var (vec.constructMoved type memory (world.vec other)))
  | .copyAssign var other =>
    match (world.vec var).storage with
    | .vec =>
      (Vec.setCopy type grants world.memory (world.vec var) (world.vec other).span
        (world.vec other).mCapacity).map (world.put var)
    | _ =>
      some (world.put var ((world.vec var).fixedSetCopy type world.memory (world.vec other).span))
  | .moveAssign var other =>
    match (world.vec var).storage with
    | .vec =>
      some (world.put var ((world.vec var).spanSetMove type world.memory (world.vec other)))
    | _ =>
      some (world.put var ((world.vec var).fixedSetMove type world.memory (world.vec other)))
  | .setCopy var data capacity =>
    (Vec.setCopy type grants world.memory (world.vec var) (data.resolve world.vec) capacity).map
      (world.put var)
  | .setMove var other => some (world.setMove var other)
  | .operate var operation =>
    (operation.run type grants world.vec world.memory (world.vec var)).map (world.put var)
  | .destruct var => some (world.release type var)

/-- A call of a program. -/
def step [Inhabited T] (ReserveSize : ℕ) (world : VecWorld Var T) (call : VecCall Var T) :
    Option (VecWorld Var T) :=
  if call.Allowed world then call.run type grants ReserveSize world else none

end VecCall

end Hakkun.Container
