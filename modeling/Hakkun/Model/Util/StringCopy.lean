import Mathlib.Data.BitVec
import Mathlib.Logic.Function.Basic

/-! # Copies of null-terminated strings

Translated from `copyFromNullTerminated` of `hk/util/Algorithm.h`. The elements of both arrays are
in one memory, where the arrays may overlap; a `size` has `w` bits.
-/

namespace Hakkun.Util

variable {T : Type} [Zero T] [DecidableEq T] {w : ℕ}

/-- The loop from `i` on, with the turns that `max` still allows; where it ends, and the memory
then. -/
def copyLoop (dest src : ℕ) (max : BitVec w) : ℕ → BitVec w → (ℕ → T) → BitVec w × (ℕ → T)
  | 0, i, memory => (i, memory)
  | turns + 1, i, memory =>
    if i < max ∧ memory (src + i.toNat) ≠ 0 then
      copyLoop dest src max turns (i + 1)
        (Function.update memory (dest + i.toNat) (memory (src + i.toNat)))
    else (i, memory)

/-- The default argument for `max`. -/
def maxDefault : BitVec w := -1

def copyFromNullTerminated (dest src : ℕ) (max : BitVec w) (memory : ℕ → T) : ℕ → T :=
  let (i, memory) := copyLoop dest src max max.toNat 0 memory
  if i = max - 1 then Function.update memory (dest + i.toNat) 0 else memory

end Hakkun.Util
