import Hakkun.Model.Util.Construct

/-! # Cells

Translated from `hk/prim/CellOperations.h` and `hk/container/Cell.h`. A template is neither a copy
nor a move operation: an inline cell is copied by the implicit operations, with its bytes and its
flag, where the type allows that, and a heap cell can not be copied. For a cell that is moved the
templates are the better match. The union of an inline cell asks for a type that is default
constructed and destroyed trivially; its values begin and end as the language has it, too.
-/

namespace Hakkun.Container

open Machine Util

variable {T : Type}

/-- A type with the lifetimes of its values. -/
structure TrackedType (T : Type) extends ObjectType T where
  tracked : trivial = false

/-- What is done with a cell and another one. -/
inductive CellOperation where
  | copyConstruct
  | copyAssign
  | moveConstruct
  | moveAssign
  deriving DecidableEq

/-- The cell begins with the operation. -/
def CellOperation.constructs : CellOperation → Bool
  | copyConstruct | moveConstruct => true
  | copyAssign | moveAssign => false

def CellOperation.moves : CellOperation → Bool
  | moveConstruct | moveAssign => true
  | copyConstruct | copyAssign => false

/-- What is done with cells. -/
inductive CellCall (Id T : Type) where
  | construct (this : Id) (value : T)
  | destroy (this : Id)
  | transfer (operation : CellOperation) (this other : Id)

variable (type : TrackedType T)

/-- The implicit copy operations of a union: the object in it, if any. -/
def copyUnion (memory : Memory T) (dest src : Address) : Memory T :=
  if dest = src then memory
  else
    let ended :=
      if (memory.slots dest).isSome then memory.destroy type.toObjectType dest else memory
    if (memory.slots src).isSome then constructAt type.toObjectType ended dest (.element src) false
    else ended

/-- Cells of type `Cell`: what is at each address, and the `mAlive` of the cell there. -/
structure Cells (T : Type) where
  memory : Memory T
  mAlive : Address → Bool

namespace Cells

variable (cells : Cells T) (this other : Address)

def isAlive : Bool := cells.mAlive this

def setAlive (alive : Bool) : Cells T :=
  { cells with mAlive := Function.update cells.mAlive this alive }

/-- `CellOperationsBase::destroy`, which returns whether the cell was alive; also the destructor. -/
def destroy : Cells T :=
  if cells.isAlive this then
    let cells := { cells with memory := cells.memory.destroy type.toObjectType this }
    cells.setAlive this false
  else cells

/-- `CellOperationsBase::construct` of another value. -/
def construct (value : Reference T) (rvalue : Bool) : Cells T :=
  let cells := cells.destroy type this
  let cells :=
    { cells with memory := constructAt type.toObjectType cells.memory this value rvalue }
  cells.setAlive this true

/-- The implicit copy operations. -/
def copyMembers : Cells T :=
  { memory := copyUnion type cells.memory this other
    mAlive := Function.update cells.mAlive this (cells.isAlive other) }

/-- The body of both move templates. -/
def moveFrom : Cells T :=
  let cells := cells.setAlive other false
  let cells := cells.construct type this (.element other) true
  { cells with memory := cells.memory.destroy type.toObjectType other }

def transfer : CellOperation → Cells T
  | .copyConstruct | .copyAssign => cells.copyMembers type this other
  | .moveConstruct => (cells.setAlive this false).moveFrom type this other
  | .moveAssign => cells.moveFrom type this other

def perform : CellCall Address T → Cells T
  | .construct this value => cells.construct type this (.temporary value) true
  | .destroy this => cells.destroy type this
  | .transfer operation this other => cells.transfer type this other operation

end Cells

/-- Cells of type `HeapCell`: the allocated objects, and the block of the `mInstance` of a cell. -/
structure HeapCells (T : Type) where
  memory : Memory T
  mInstance : ℕ → Option ℕ

namespace HeapCells

variable (cells : HeapCells T) (this other : ℕ)

def setStorage (instance' : Option ℕ) : HeapCells T :=
  { cells with mInstance := Function.update cells.mInstance this instance' }

/-- `CellOperationsOnHeap::destroy`, also the destructor. -/
def destroy : HeapCells T :=
  match cells.mInstance this with
  | none => cells
  | some block =>
    let memory := cells.memory.destroy type.toObjectType (block, 0)
    let cells := { cells with memory := memory.free block }
    cells.setStorage this none

/-- `CellOperationsOnHeap::construct` of another value. -/
def construct (value : Reference T) (rvalue : Bool) : HeapCells T :=
  match cells.mInstance this with
  | some block =>
    let memory := cells.memory.destroy type.toObjectType (block, 0)
    { cells with memory := constructAt type.toObjectType memory (block, 0) value rvalue }
  | none =>
    let (block, memory) := cells.memory.allocate 1
    let cells := { cells with memory }.setStorage this block
    { cells with memory := constructAt type.toObjectType memory (block, 0) value rvalue }

/-- The move constructor template. -/
def moveConstruct : HeapCells T :=
  let cells := cells.setStorage this (cells.mInstance other)
  cells.setStorage other none

/-- The move assignment template. -/
def moveAssign : HeapCells T :=
  let cells := cells.destroy type this
  let cells := cells.setStorage this (cells.mInstance other)
  cells.setStorage other none

/-- The copy operations are deleted. -/
def transfer : CellOperation → Option (HeapCells T)
  | .copyConstruct | .copyAssign => none
  | .moveConstruct => some (cells.moveConstruct this other)
  | .moveAssign => some (cells.moveAssign type this other)

def perform : CellCall ℕ T → Option (HeapCells T)
  | .construct this value => some (cells.construct type this (.temporary value) true)
  | .destroy this => some (cells.destroy type this)
  | .transfer operation this other => cells.transfer type this other operation

end HeapCells

end Hakkun.Container
