import Hakkun.Machine.Core.Objects

/-! # Accesses outside of blocks

No access allocates or frees a block, and that an access was outside of every block is never
forgotten. So a loop has strayed when one of its rounds strays.
-/

namespace Hakkun.Machine.Memory

variable {T : Type*} {type : ObjectType T} {memory after : Memory T} {address : Address}

/-- The same blocks are allocated, and an access outside of them is not forgotten. -/
structure Keeps (memory after : Memory T) : Prop where
  blocks : after.blocks = memory.blocks
  freed : after.freed = memory.freed
  wild : memory.wild = true → after.wild = true

namespace Keeps

theorem refl (memory : Memory T) : Keeps memory memory := ⟨rfl, rfl, id⟩

theorem trans {last : Memory T} (first : Keeps memory after) (second : Keeps after last) :
    Keeps memory last :=
  ⟨second.blocks.trans first.blocks, second.freed.trans first.freed,
    fun strayed => second.wild (first.wild strayed)⟩

theorem valid_iff (keeps : Keeps memory after) (address : Address) :
    after.Valid address ↔ memory.Valid address := by
  rw [Valid, Valid, keeps.blocks, keeps.freed]

theorem touch (memory : Memory T) (address : Address) : Keeps memory (memory.touch address) :=
  ⟨rfl, rfl, fun strayed => by rw [Memory.touch, strayed, Bool.true_or]⟩

theorem construct (memory : Memory T) (address : Address) (value : Option T) :
    Keeps memory (memory.construct type address value) := by
  rw [Memory.construct]
  split
  · exact ⟨rfl, rfl, id⟩
  · exact ⟨rfl, rfl, fun _ => rfl⟩

theorem destroy (memory : Memory T) (address : Address) :
    Keeps memory (memory.destroy type address) := by
  rw [Memory.destroy]
  split
  · exact refl memory
  · split
    · cases memory.slots address <;> exact ⟨rfl, rfl, id⟩
    · exact ⟨rfl, rfl, fun _ => rfl⟩

theorem retire (memory : Memory T) (address : Address) :
    Keeps memory (memory.retire type address) := ⟨rfl, rfl, id⟩

end Keeps

theorem wild_touch (invalid : ¬ memory.Valid address) : (memory.touch address).wild = true := by
  rw [touch, decide_eq_false invalid, Bool.not_false, Bool.or_true]

theorem wild_construct (invalid : ¬ memory.Valid address) (value : Option T) :
    (memory.construct type address value).wild = true := by
  rw [construct, if_neg invalid]

/-- A loop keeps what its rounds keep. -/
theorem keeps_loop {body : ℕ → Memory T → Memory T} (count : ℕ)
    (keeps : ∀ i between, Keeps between (body i between)) :
    Keeps memory (loop body count memory) :=
  loop_invariant body count memory (fun _ between => Keeps memory between) (Keeps.refl memory)
    fun i _ between kept => kept.trans (keeps i between)

/-- A loop strays when one of its rounds does. -/
theorem wild_loop {body : ℕ → Memory T → Memory T} {count round : ℕ} (bound : round < count)
    (keeps : ∀ i between, Keeps between (body i between))
    (strays : ∀ between, Keeps memory between → (body round between).wild = true) :
    (loop body count memory).wild = true := by
  induction count with
  | zero => exact absurd bound (Nat.not_lt_zero round)
  | succ count ih =>
    rcases Nat.lt_succ_iff_lt_or_eq.mp bound with earlier | rfl
    · exact (keeps count _).wild (ih earlier)
    · exact strays _ (keeps_loop round keeps)

end Hakkun.Machine.Memory
