import Mathlib.Data.List.Basic
import Mathlib.Logic.Function.Basic

/-! # Objects in memory

Memory is a growing list of blocks of slots. A slot holds an object or none; constructing an object
gives it the next identity and destroying it records that identity. Undefined accesses do not stop
a program, they are remembered: `misused` when a slot does not hold what an access assumes, `wild`
when it is outside every block that is allocated. Objects of a trivial type have no lifetime, their
bytes stay.
-/

namespace Hakkun.Machine

/-- What a program can see of the objects of a type. -/
structure ObjectType (T : Type*) where
  /-- Copies, moves and destructors do nothing but copy bytes. -/
  trivial : Bool
  /-- What a move leaves behind. -/
  moved : T → T
  sizeOf : ℕ
  moved_of_trivial : trivial = true → ∀ value, moved value = value
  sizeOf_pos : 0 < sizeOf

/-- An object and its identity; its value may be indeterminate. -/
structure Object (T : Type*) where
  value : Option T
  id : ℕ

/-- A block and an index. -/
abbrev Address := ℕ × ℕ

def Address.offset (address : Address) (amount : ℕ) : Address := (address.1, address.2 + amount)

structure Memory (T : Type*) where
  slots : Address → Option (Object T) := fun _ => none
  /-- The number of slots of each block; the null pointer is a block without any. -/
  blocks : List ℕ := [0]
  freed : List ℕ := []
  constructed : ℕ := 0
  destroyed : List ℕ := []
  misused : Bool := false
  wild : Bool := false

namespace Memory

variable {T : Type*} (type : ObjectType T) (memory : Memory T)

/-- The slot is in a block that is allocated. -/
def Valid (address : Address) : Prop :=
  address.2 < memory.blocks[address.1]?.getD 0 ∧ address.1 ∉ memory.freed

instance (address : Address) : Decidable (memory.Valid address) :=
  inferInstanceAs (Decidable (_ ∧ _))

/-- The slot holds an object. -/
def Live (address : Address) : Prop := memory.slots address ≠ none

/-- The value of the object in a slot. -/
def read (address : Address) : Option T := (memory.slots address).bind Object.value

/-- An access to the object in a slot. -/
def touch (address : Address) : Memory T :=
  { memory with
    misused := memory.misused || (memory.slots address).isNone
    wild := memory.wild || !decide (memory.Valid address) }

/-- A new object in a slot. -/
def construct (address : Address) (value : Option T) : Memory T :=
  if memory.Valid address then
    { memory with
      slots := Function.update memory.slots address (some ⟨value, memory.constructed⟩)
      constructed := memory.constructed + 1
      misused := memory.misused || (!type.trivial && (memory.slots address).isSome) }
  else { memory with wild := true }

/-- The destructor of the object in a slot. -/
def destroy (address : Address) : Memory T :=
  if type.trivial then memory
  else if memory.Valid address then
    match memory.slots address with
    | some object =>
      { memory with
        slots := Function.update memory.slots address none
        destroyed := object.id :: memory.destroyed }
    | none => { memory with misused := true }
  else { memory with wild := true }

/-- The object in a slot after it was moved from. -/
def retire (address : Address) : Memory T :=
  { memory with
    slots := Function.update memory.slots address
      ((memory.slots address).map fun object => { object with value := object.value.map type.moved }) }

/-- A block of new slots. -/
def allocate (count : ℕ) : ℕ × Memory T :=
  (memory.blocks.length, { memory with blocks := memory.blocks ++ [count] })

/-- The end of a block. -/
def free (block : ℕ) : Memory T :=
  { memory with
    slots := fun address => if address.1 = block then none else memory.slots address
    freed := block :: memory.freed }

/-- The same blocks are allocated, and no access was outside of them. -/
structure Calm (memory after : Memory T) : Prop where
  blocks : after.blocks = memory.blocks
  freed : after.freed = memory.freed
  wild : after.wild = memory.wild

end Memory

/-- A loop over the indices below a bound. -/
def loop {σ : Type*} (body : ℕ → σ → σ) : ℕ → σ → σ
  | 0, state => state
  | count + 1, state => body count (loop body count state)

/-- The invariant rule of a loop. -/
theorem loop_invariant {σ : Type*} (body : ℕ → σ → σ) (count : ℕ) (state : σ) (Inv : ℕ → σ → Prop)
    (start : Inv 0 state)
    (step : ∀ i < count, ∀ state, Inv i state → Inv (i + 1) (body i state)) :
    Inv count (loop body count state) := by
  induction count with
  | zero => exact start
  | succ count ih =>
    exact step count (Nat.lt_succ_self count) _ (ih fun i bound => step i (Nat.lt_succ_of_lt bound))

namespace Memory

variable {T : Type*} {type : ObjectType T} {memory after : Memory T} {address other : Address}

namespace Calm

theorem refl (memory : Memory T) : Calm memory memory := ⟨rfl, rfl, rfl⟩

theorem trans {last : Memory T} (first : Calm memory after) (second : Calm after last) :
    Calm memory last :=
  ⟨second.blocks.trans first.blocks, second.freed.trans first.freed, second.wild.trans first.wild⟩

theorem valid_iff (calm : Calm memory after) (address : Address) :
    after.Valid address ↔ memory.Valid address := by
  rw [Valid, Valid, calm.blocks, calm.freed]

theorem touch (valid : memory.Valid address) : Calm memory (memory.touch address) :=
  ⟨rfl, rfl, by simp [Memory.touch, valid]⟩

theorem construct (valid : memory.Valid address) (value : Option T) :
    Calm memory (memory.construct type address value) := by
  rw [Memory.construct, if_pos valid]
  exact ⟨rfl, rfl, rfl⟩

theorem destroy (valid : memory.Valid address) : Calm memory (memory.destroy type address) := by
  unfold Memory.destroy
  split_ifs
  · exact refl memory
  · cases memory.slots address <;> exact ⟨rfl, rfl, rfl⟩

theorem retire : Calm memory (memory.retire type address) := ⟨rfl, rfl, rfl⟩

end Calm

section Slots

theorem slots_construct_self (valid : memory.Valid address) (value : Option T) :
    (memory.construct type address value).slots address = some ⟨value, memory.constructed⟩ := by
  rw [construct, if_pos valid]
  exact Function.update_self ..

theorem slots_construct_of_ne (different : other ≠ address) (value : Option T) :
    (memory.construct type address value).slots other = memory.slots other := by
  unfold construct
  split_ifs
  · exact Function.update_of_ne different ..
  · rfl

theorem destroy_of_trivial (trivial : type.trivial = true) :
    memory.destroy type address = memory := by
  rw [destroy, if_pos trivial]

theorem slots_destroy_of_ne (different : other ≠ address) :
    (memory.destroy type address).slots other = memory.slots other := by
  unfold destroy
  split_ifs
  · rfl
  · cases memory.slots address with
    | none => rfl
    | some object => exact Function.update_of_ne different ..
  · rfl

theorem slots_retire_self : (memory.retire type address).slots address =
    (memory.slots address).map fun object => { object with value := object.value.map type.moved } :=
  Function.update_self ..

theorem slots_retire_of_ne (different : other ≠ address) :
    (memory.retire type address).slots other = memory.slots other :=
  Function.update_of_ne different ..

end Slots

section Values

theorem read_of_slots {object : Object T} (held : memory.slots address = some object) :
    memory.read address = object.value := by
  rw [read, held]
  rfl

theorem read_congr (same : after.slots address = memory.slots address) :
    after.read address = memory.read address := by
  rw [read, same, read]

@[simp] theorem read_touch : (memory.touch address).read other = memory.read other := rfl

theorem read_construct_self (valid : memory.Valid address) (value : Option T) :
    (memory.construct type address value).read address = value :=
  read_of_slots (slots_construct_self valid value)

theorem read_construct_of_ne (different : other ≠ address) (value : Option T) :
    (memory.construct type address value).read other = memory.read other :=
  read_congr (slots_construct_of_ne different value)

theorem read_destroy_of_ne (different : other ≠ address) :
    (memory.destroy type address).read other = memory.read other :=
  read_congr (slots_destroy_of_ne different)

theorem read_retire_self : (memory.retire type address).read address =
    (memory.read address).map type.moved := by
  rw [read, slots_retire_self, read]
  cases memory.slots address <;> rfl

theorem read_retire_of_ne (different : other ≠ address) :
    (memory.retire type address).read other = memory.read other :=
  read_congr (slots_retire_of_ne different)

theorem read_retire_of_trivial (trivial : type.trivial = true) :
    (memory.retire type address).read other = memory.read other := by
  by_cases same : other = address
  · subst same
    rw [read_retire_self]
    cases memory.read other with
    | none => rfl
    | some value => exact congrArg some (type.moved_of_trivial trivial value)
  · exact read_retire_of_ne same

end Values

section Lifetimes

theorem live_congr (same : after.slots address = memory.slots address) :
    after.Live address ↔ memory.Live address := by
  rw [Live, same, Live]

theorem live_construct (valid : memory.Valid address) (value : Option T) :
    (memory.construct type address value).Live other ↔ other = address ∨ memory.Live other := by
  by_cases same : other = address
  · subst same
    simp [Live, slots_construct_self valid]
  · rw [live_congr (slots_construct_of_ne same value), or_iff_right same]

theorem live_destroy (observed : type.trivial = false) (valid : memory.Valid address) :
    (memory.destroy type address).Live other ↔ other ≠ address ∧ memory.Live other := by
  by_cases same : other = address
  · subst same
    simp only [ne_eq, not_true_eq_false, false_and, iff_false, Live, not_not]
    rw [destroy, if_neg (by simp [observed]), if_pos valid]
    cases held : memory.slots other with
    | none => exact held
    | some object => exact Function.update_self ..
  · rw [live_congr (slots_destroy_of_ne same), and_iff_right same]

theorem live_retire : (memory.retire type address).Live other ↔ memory.Live other := by
  by_cases same : other = address
  · subst same
    simp [Live, slots_retire_self]
  · exact live_congr (slots_retire_of_ne same)

/-- Nothing was misused, and every object that was constructed is in one slot of an allocated block
or has been destroyed exactly once. -/
structure Sound (memory : Memory T) : Prop where
  used : memory.misused = false
  placed : ∀ address, memory.Live address → memory.Valid address
  once : ∀ id < memory.constructed,
    (∃ address object, memory.slots address = some object ∧ object.id = id) ∨
      memory.destroyed.count id = 1
  alive : ∀ address object, memory.slots address = some object →
    object.id < memory.constructed ∧ memory.destroyed.count object.id = 0
  apart : ∀ first second object object', memory.slots first = some object →
    memory.slots second = some object' → object.id = object'.id → first = second
  beyond : ∀ id, memory.constructed ≤ id → memory.destroyed.count id = 0

namespace Sound

theorem empty : Sound ({} : Memory T) where
  used := rfl
  placed _ live := absurd rfl live
  once _ bound := absurd bound (Nat.not_lt_zero _)
  alive _ _ held := by cases held
  apart _ _ _ _ held := by cases held
  beyond _ _ := rfl

theorem touch (sound : Sound memory) (live : memory.Live address) :
    Sound (memory.touch address) where
  used := by
    obtain ⟨object, held⟩ := Option.ne_none_iff_exists'.mp live
    simp [Memory.touch, sound.used, held]
  placed := sound.placed
  once := sound.once
  alive := sound.alive
  apart := sound.apart
  beyond := sound.beyond

theorem construct (sound : Sound memory) (valid : memory.Valid address)
    (dead : ¬ memory.Live address) (value : Option T) :
    Sound (memory.construct type address value) := by
  have empty : memory.slots address = none := not_not.mp dead
  have fields : memory.construct type address value = { memory with
      slots := Function.update memory.slots address (some ⟨value, memory.constructed⟩)
      constructed := memory.constructed + 1
      misused := memory.misused || (!type.trivial && (memory.slots address).isSome) } :=
    if_pos valid
  have held {other : Address} {object : Object T}
      (there : (memory.construct type address value).slots other = some object) :
      (other = address ∧ object.id = memory.constructed) ∨
        (other ≠ address ∧ memory.slots other = some object) := by
    by_cases same : other = address
    · subst same
      rw [slots_construct_self valid] at there
      exact .inl ⟨rfl, (congrArg Object.id (Option.some.inj there)).symm⟩
    · rw [slots_construct_of_ne same] at there
      exact .inr ⟨same, there⟩
  have new : (memory.construct type address value).constructed = memory.constructed + 1 := by
    rw [fields]
  have old : (memory.construct type address value).destroyed = memory.destroyed := by rw [fields]
  refine ⟨?_, ?_, ?_, ?_, ?_, ?_⟩
  · rw [fields]
    simp [sound.used, empty]
  · intro other live
    rw [(Calm.construct valid value).valid_iff]
    rcases (live_construct valid value).mp live with rfl | live
    · exact valid
    · exact sound.placed other live
  · intro id bound
    rw [new] at bound
    rw [old]
    rcases Nat.lt_succ_iff_lt_or_eq.mp bound with earlier | rfl
    · refine (sound.once id earlier).imp_left ?_
      rintro ⟨other, object, there, same⟩
      refine ⟨other, object, ?_, same⟩
      rw [slots_construct_of_ne, there]
      rintro rfl
      rw [empty] at there
      cases there
    · exact .inl ⟨address, _, slots_construct_self valid value, rfl⟩
  · intro other object there
    rw [new, old]
    rcases held there with ⟨-, id⟩ | ⟨-, there⟩
    · rw [id]
      exact ⟨Nat.lt_succ_self _, sound.beyond _ (Nat.le_refl _)⟩
    · exact (sound.alive other object there).imp_left Nat.lt_succ_of_lt
  · intro first second object object' here there same
    rcases held here with ⟨first_eq, id⟩ | ⟨-, here⟩ <;>
      rcases held there with ⟨second_eq, id'⟩ | ⟨-, there⟩
    · exact first_eq.trans second_eq.symm
    · have := (sound.alive second object' there).1
      omega
    · have := (sound.alive first object here).1
      omega
    · exact sound.apart first second object object' here there same
  · intro id bound
    rw [new] at bound
    rw [old]
    exact sound.beyond id (by omega)

theorem destroy (sound : Sound memory) (observed : type.trivial = false)
    (live : memory.Live address) : Sound (memory.destroy type address) := by
  have valid := sound.placed address live
  obtain ⟨victim, here⟩ := Option.ne_none_iff_exists'.mp live
  have fields : memory.destroy type address = { memory with
      slots := Function.update memory.slots address none
      destroyed := victim.id :: memory.destroyed } := by
    rw [Memory.destroy, if_neg (by simp [observed]), if_pos valid, here]
  have held {other : Address} {object : Object T}
      (there : (memory.destroy type address).slots other = some object) :
      other ≠ address ∧ memory.slots other = some object := by
    have live : (memory.destroy type address).Live other := by
      rw [Live, there]
      simp
    have kept := (live_destroy observed valid).mp live
    rw [slots_destroy_of_ne kept.1] at there
    exact ⟨kept.1, there⟩
  have new : (memory.destroy type address).constructed = memory.constructed := by rw [fields]
  have old : (memory.destroy type address).destroyed = victim.id :: memory.destroyed := by rw [fields]
  obtain ⟨young, kept⟩ := sound.alive address victim here
  refine ⟨?_, ?_, ?_, ?_, ?_, ?_⟩
  · rw [fields]
    exact sound.used
  · intro other live
    rw [(Calm.destroy valid).valid_iff]
    exact sound.placed other ((live_destroy observed valid).mp live).2
  · intro id bound
    rw [new] at bound
    rw [old]
    by_cases same : victim.id = id
    · subst same
      exact .inr (by rw [List.count_cons_self, kept])
    · rw [List.count_cons_of_ne same]
      refine (sound.once id bound).imp_left ?_
      rintro ⟨other, object, there, rfl⟩
      refine ⟨other, object, ?_, rfl⟩
      rw [slots_destroy_of_ne, there]
      rintro rfl
      rw [here] at there
      exact same (congrArg Object.id (Option.some.inj there))
  · intro other object there
    obtain ⟨different, there⟩ := held there
    rw [new, old, List.count_cons_of_ne]
    · exact sound.alive other object there
    · intro same
      exact different (sound.apart address other victim object here there same).symm
  · intro first second object object' here there same
    exact sound.apart first second object object' (held here).2 (held there).2 same
  · intro id bound
    rw [new] at bound
    rw [old, List.count_cons_of_ne (by omega)]
    exact sound.beyond id bound

theorem retire (sound : Sound memory) : Sound (memory.retire type address) := by
  have held {other : Address} {object : Object T}
      (there : (memory.retire type address).slots other = some object) :
      ∃ object', memory.slots other = some object' ∧ object'.id = object.id := by
    by_cases same : other = address
    · subst same
      rw [slots_retire_self, Option.map_eq_some_iff] at there
      obtain ⟨object', there, rfl⟩ := there
      exact ⟨object', there, rfl⟩
    · rw [slots_retire_of_ne same] at there
      exact ⟨object, there, rfl⟩
  have kept {other : Address} {object : Object T} (there : memory.slots other = some object) :
      ∃ object', (memory.retire type address).slots other = some object' ∧
        object'.id = object.id := by
    by_cases same : other = address
    · subst same
      rw [slots_retire_self, there]
      exact ⟨_, rfl, rfl⟩
    · rw [slots_retire_of_ne same]
      exact ⟨object, there, rfl⟩
  refine ⟨sound.used, ?_, ?_, ?_, ?_, sound.beyond⟩
  · intro other live
    exact (Calm.retire.valid_iff other).mpr (sound.placed other (live_retire.mp live))
  · intro id bound
    refine (sound.once id bound).imp_left ?_
    rintro ⟨other, object, there, rfl⟩
    obtain ⟨object', there, same⟩ := kept there
    exact ⟨other, object', there, same⟩
  · intro other object there
    obtain ⟨object', there, same⟩ := held there
    exact same ▸ sound.alive other object' there
  · intro first second object object' here there same
    obtain ⟨one, here, sameOne⟩ := held here
    obtain ⟨two, there, sameTwo⟩ := held there
    exact sound.apart first second one two here there (sameOne.trans (same.trans sameTwo.symm))

theorem allocate (sound : Sound memory) (count : ℕ) : Sound (memory.allocate count).2 where
  used := sound.used
  placed address live := by
    obtain ⟨inside, kept⟩ := sound.placed address live
    refine ⟨?_, kept⟩
    have bound : address.1 < memory.blocks.length := by
      by_contra outside
      rw [List.getElem?_eq_none (by omega)] at inside
      exact absurd inside (Nat.not_lt_zero _)
    change address.2 < (memory.blocks ++ [count])[address.1]?.getD 0
    rw [List.getElem?_append_left bound]
    exact inside
  once := sound.once
  alive := sound.alive
  apart := sound.apart
  beyond := sound.beyond

/-- A new block has no objects yet. -/
theorem not_live_new (sound : Sound memory) (i : ℕ) : ¬ memory.Live (memory.blocks.length, i) := by
  intro live
  have inside := (sound.placed _ live).1
  rw [List.getElem?_eq_none (Nat.le_refl _)] at inside
  exact absurd inside (Nat.not_lt_zero i)

/-- A block ends after its objects. -/
theorem free (sound : Sound memory) {block : ℕ} (dead : ∀ i, ¬ memory.Live (block, i)) :
    Sound (memory.free block) := by
  have same : (memory.free block).slots = memory.slots := by
    funext other
    change (if other.1 = block then none else memory.slots other) = memory.slots other
    split_ifs with here
    · subst here
      exact (not_not.mp (dead other.2)).symm
    · rfl
  refine ⟨sound.used, ?_, same.symm ▸ sound.once, same.symm ▸ sound.alive,
    same.symm ▸ sound.apart, sound.beyond⟩
  · intro other live
    have live' := (live_congr (congrFun same other)).mp live
    obtain ⟨inside, kept⟩ := sound.placed other live'
    refine ⟨inside, fun member => ?_⟩
    rcases List.mem_cons.mp member with here | member
    · subst here
      exact dead other.2 live'
    · exact kept member

end Sound

end Lifetimes

end Memory

end Hakkun.Machine
