import Hakkun.Model.Util.Construct

/-! # Insertion sort

Translated from `insertionSort` of `hk/util/Algorithm.h`. A comparison may abort; there is no result
then, nor where it is given an indeterminate value. The slot after `lhsIdx` is the hole that the
inner loop moves to the left.
-/

namespace Hakkun.Util

open Machine

variable {T : Type} (type : ObjectType T) (cmp : T → T → Option Bool)

/-- `cmp(lhs, rhs)`. -/
def compare (memory : Memory T) (lhs rhs : Address) : Option (Bool × Memory T) := do
  let memory := (memory.touch lhs).touch rhs
  let less ← cmp (← memory.read lhs) (← memory.read rhs)
  some (less, memory)

/-- `dest.~T()` and `construct_at(dest, forward<T>(src))`. -/
def replace (memory : Memory T) (dest src : Address) : Memory T :=
  constructAt type (memory.destroy type dest) dest (.element src) true

/-- The inner loop, for `lhsIdx + 1`; where it stops, and the memory then. -/
def shift (values rhs : Address) : ℕ → Memory T → Option (ℕ × Memory T)
  | 0, memory => some (0, memory)
  | lhsIdx + 1, memory => do
    let (less, memory) ← compare cmp memory (values.offset lhsIdx) rhs
    if less then
      some (lhsIdx + 1, memory)
    else
      let memory := replace type memory (values.offset (lhsIdx + 1)) (values.offset lhsIdx)
      shift values rhs lhsIdx memory

/-- One round of the outer loop; `rhs` is a local object. -/
def insertElement (values : Address) (memory : Memory T) (rhsIdx : ℕ) : Option (Memory T) := do
  let (block, memory) := memory.allocate 1
  let rhs : Address := (block, 0)
  let memory := constructAt type memory rhs (.element (values.offset rhsIdx)) true
  let (hole, memory) ← shift type cmp values rhs rhsIdx memory
  let memory := replace type memory (values.offset hole) rhs
  some ((memory.destroy type rhs).free block)

def insertionSort (values : Address) (numValues : ℕ) (memory : Memory T) : Option (Memory T) :=
  (List.range' 1 (numValues - 1)).foldlM (insertElement type cmp values) memory

end Hakkun.Util
