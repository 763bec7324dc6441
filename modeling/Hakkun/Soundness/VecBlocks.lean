import Hakkun.Model.Container.VecObjects
import Hakkun.Soundness.Construct
import Mathlib.Tactic.Ring

/-! # Blocks of vectors

What the operations of one vector do with its block: a growing operation may move the elements to a
new one, everything else stays within the capacity.
-/

namespace Hakkun.Container

open Machine Machine.Memory Util

variable {Var T : Type} {type : ObjectType T} {memory after : Memory T} {vec vec' : Vec}

/-- The vector gets another block for the capacity. -/
def Vec.Grows (vec : Vec) (capacity : ℕ) : Prop := vec.storage = .vec ∧ vec.mCapacity < capacity

instance (vec : Vec) (capacity : ℕ) : Decidable (vec.Grows capacity) :=
  inferInstanceAs (Decidable (_ ∧ _))

variable (type) in
/-- The bytes of the block for a capacity do not wrap around. -/
def Vec.Fits (vec : Vec) (capacity : ℕ) : Prop :=
  max vec.mSize capacity * type.sizeOf < 2 ^ 64

/-- The capacity that an operation asks for. -/
def Operation.capacity (vec : Vec) : Operation Var T → ℕ
  | .add _ _ | .insert _ _ _ | .emplaceAt _ _ _ | .pushFront _ _ => vec.mSize + 1
  | .append data => vec.mSize + data.size
  | .extend newSize _ | .resize newSize _ => newSize
  | .reserve capacity => capacity
  | .remove _ | .popBack | .popFront | .truncate _ | .clear => 0

/-- An argument refers to an element of a vector. -/
def Operand.RefersTo (var : Var) : Operand Var T → Prop
  | .value _ => False
  | .element owner _ => owner = var

def SpanOperand.RefersTo (var : Var) : SpanOperand Var T → Prop
  | .values _ => False
  | .elements owner _ count => owner = var ∧ count ≠ 0

def Operation.RefersTo (var : Var) : Operation Var T → Prop
  | .add value _ | .insert value _ _ | .emplaceAt _ value _ | .pushFront value _
  | .extend _ value | .resize _ value => value.RefersTo var
  | .append data => data.RefersTo var
  | .remove _ | .popBack | .popFront | .truncate _ | .clear | .reserve _ => False

section Decidable

variable [DecidableEq Var]

instance (var : Var) (operand : Operand Var T) : Decidable (operand.RefersTo var) :=
  match operand with
  | .value _ => inferInstanceAs (Decidable False)
  | .element _ _ => inferInstanceAs (Decidable (_ = _))

instance (var : Var) (data : SpanOperand Var T) : Decidable (data.RefersTo var) :=
  match data with
  | .values _ => inferInstanceAs (Decidable False)
  | .elements _ _ _ => inferInstanceAs (Decidable (_ ∧ _))

instance (var : Var) (operation : Operation Var T) : Decidable (operation.RefersTo var) :=
  match operation with
  | .add value _ | .insert value _ _ | .emplaceAt _ value _ | .pushFront value _
  | .extend _ value | .resize _ value => inferInstanceAs (Decidable (value.RefersTo var))
  | .append data => inferInstanceAs (Decidable (data.RefersTo var))
  | .remove _ | .popBack | .popFront | .truncate _ | .clear | .reserve _ =>
    inferInstanceAs (Decidable False)

end Decidable

variable (type) in
/-- An operation does not refer to elements of a block that it frees, or ask for so many that their
bytes wrap around. -/
def Operation.GrowsWell (vec : Vec) (var : Var) (operation : Operation Var T) : Prop :=
  vec.Grows (operation.capacity vec) →
    vec.Fits type (operation.capacity vec) ∧ ¬ operation.RefersTo var

instance [DecidableEq Var] (vec : Vec) (var : Var) (operation : Operation Var T) :
    Decidable (operation.GrowsWell type vec var) :=
  inferInstanceAs (Decidable (_ → _ < _ ∧ _))

theorem SpanOperand.data_resolve {vecs : Var → Vec} {data : SpanOperand Var T} {i : ℕ}
    {operand : Operand Var T} (got : data.get i = some operand) :
    (data.resolve vecs).data i = operand.resolve vecs := by
  change ((data.get i).map (Operand.resolve vecs)).getD _ = _
  rw [got]
  rfl

/-- What a span refers to are single arguments. -/
theorem SpanOperand.get_of_allowed {sizes : Var → ℕ} {data : SpanOperand Var T} {i : ℕ}
    (allowed : data.Allowed sizes) (bound : i < data.size) :
    ∃ operand, data.get i = some operand ∧ operand.Allowed sizes ∧
      ∀ var, operand.RefersTo var → data.RefersTo var := by
  cases data with
  | values given =>
    have within : i < given.length := bound
    exact ⟨.value given[i], by simp [SpanOperand.get, within], trivial, fun _ refers => refers⟩
  | elements owner start count =>
    have within : i < count := bound
    refine ⟨.element owner (start + i), if_pos within, ?_, fun _ refers => ⟨refers, by omega⟩⟩
    change start + count ≤ sizes owner at allowed
    change start + i < sizes owner
    omega

theorem Vec.element_offset (vec : Vec) (index i : ℕ) :
    (vec.element index).offset i = vec.element (index + i) := rfl

theorem Vec.outside_of_lt {i index amount : ℕ} (below : i < index) :
    Outside (vec.element index) amount (vec.element i) := by
  intro j _ same
  have place : i = index + j := congrArg Prod.snd same
  omega

/-- A capacity whose bytes do not wrap around is what the block has room for. -/
theorem slots_of_fits {capacity : ℕ} (fits : capacity * type.sizeOf < 2 ^ 64) :
    capacity * type.sizeOf % 2 ^ 64 / type.sizeOf = capacity := by
  rw [Nat.mod_eq_of_lt fits, Nat.mul_div_cancel _ type.sizeOf_pos]

/-- What the end of a vector's block leaves. -/
theorem Vec.free_cases (memory : Memory T) (vec : Vec) :
    (vec.free memory).blocks = memory.blocks ∧
    (∀ block ∈ (vec.free memory).freed, block = vec.mData ∨ block ∈ memory.freed) ∧
    (∀ other : Address, other.1 ≠ vec.mData →
      (vec.free memory).slots other = memory.slots other) ∧ (vec.free memory).wild = memory.wild := by
  unfold Vec.free
  split_ifs
  · exact ⟨rfl, fun _ member => .inr member, fun _ _ => rfl, rfl⟩
  · exact ⟨rfl, fun _ member => List.mem_cons.mp member, fun _ different => if_neg different, rfl⟩

/-- Memory with one more block. -/
def extended (memory : Memory T) (count : ℕ) : Memory T :=
  { memory with blocks := memory.blocks ++ [count] }

theorem extended_old {block : ℕ} (bound : block < memory.blocks.length) (count : ℕ) :
    (extended memory count).blocks[block]? = memory.blocks[block]? :=
  List.getElem?_append_left bound

theorem extended_new (memory : Memory T) (count : ℕ) :
    (extended memory count).blocks[memory.blocks.length]? = some count :=
  (List.getElem?_append_right (le_refl _)).trans (by simp)

theorem valid_extended {address : Address} (valid : memory.Valid address) (count : ℕ) :
    (extended memory count).Valid address := by
  obtain ⟨inside, kept⟩ := valid
  refine ⟨?_, kept⟩
  have bound : address.1 < memory.blocks.length := by
    by_contra outside
    rw [List.getElem?_eq_none (by omega)] at inside
    exact absurd inside (Nat.not_lt_zero _)
  rw [extended_old bound]
  exact inside

theorem reference_extended {value : Reference T} (valid : value.Valid memory) (count : ℕ) :
    value.Valid (extended memory count) := by
  cases value with
  | temporary value => trivial
  | element address => exact valid_extended valid count

/-- An allocation whose bytes do not wrap around is a new block of that capacity. -/
theorem Vec.allocate_eq {grants : ℕ → ℕ → Bool} {size capacity newData : ℕ}
    (fits : max size capacity * type.sizeOf < 2 ^ 64)
    (allocated : Vec.allocate type memory grants size capacity = some (newData, after)) :
    newData = memory.blocks.length ∧ after = extended memory (max size capacity) := by
  simp only [Vec.allocate, slots_of_fits fits] at allocated
  split_ifs at allocated
  exact (Prod.mk.inj (Option.some.inj allocated)).imp Eq.symm Eq.symm

/-- A `reserve` does nothing, or moves the elements to a new block. -/
theorem Vec.reserve_cases {grants : ℕ → ℕ → Bool} {capacity : ℕ}
    (fits : vec.mCapacity < capacity → vec.Fits type capacity)
    (ran : vec.reserve type memory grants capacity = some (after, vec')) :
    (capacity ≤ vec.mCapacity ∧ after = memory ∧ vec' = vec) ∨
    (vec.mCapacity < capacity ∧
      after = vec.relocate type (extended memory (max vec.mSize capacity)) memory.blocks.length ∧
      vec' = { vec with mData := memory.blocks.length, mCapacity := capacity }) := by
  unfold Vec.reserve at ran
  split_ifs at ran with enough
  · obtain ⟨rfl, rfl⟩ := Prod.mk.inj (Option.some.inj ran)
    exact .inl ⟨enough, rfl, rfl⟩
  · rw [Option.map_eq_some_iff] at ran
    obtain ⟨⟨newData, fresh⟩, allocated, ran⟩ := ran
    obtain ⟨rfl, rfl⟩ := Vec.allocate_eq (fits (by omega)) allocated
    obtain ⟨rfl, rfl⟩ := Prod.mk.inj ran
    exact .inr ⟨by omega, rfl, rfl⟩

/-- Growing does nothing, or moves the elements to a new block. -/
theorem Vec.grow_cases {grants : ℕ → ℕ → Bool} {capacity : ℕ}
    (fits : vec.Grows capacity → vec.Fits type capacity)
    (ran : vec.grow type memory grants capacity = some (after, vec')) :
    (¬ vec.Grows capacity ∧ after = memory ∧ vec' = vec) ∨
    (vec.Grows capacity ∧
      after = vec.relocate type (extended memory (max vec.mSize capacity)) memory.blocks.length ∧
      vec' = { vec with mData := memory.blocks.length, mCapacity := capacity }) := by
  unfold Vec.grow at ran
  split at ran
  · rename_i heap
    rcases Vec.reserve_cases (fun small => fits ⟨heap, small⟩) ran with ⟨enough, same⟩ | ⟨small, moved⟩
    · exact .inl ⟨fun grows => absurd grows.2 (by omega), same⟩
    · exact .inr ⟨⟨heap, small⟩, moved⟩
  · rename_i elsewhere
    obtain ⟨rfl, rfl⟩ := Prod.mk.inj (Option.some.inj ran)
    exact .inl ⟨fun grows => elsewhere grows.1, rfl, rfl⟩

theorem Vec.size_grow {grants : ℕ → ℕ → Bool} {capacity : ℕ} {result : Memory T × Vec}
    (ran : vec.grow type memory grants capacity = some result) : result.2.mSize = vec.mSize := by
  unfold Vec.grow Vec.reserve at ran
  split at ran
  · split_ifs at ran
    · cases ran
      rfl
    · obtain ⟨⟨newData, fresh⟩, -, rfl⟩ := Option.map_eq_some_iff.mp ran
      rfl
  · cases ran
    rfl

variable (type) in
/-- The blocks after the elements were moved to another one. -/
theorem Vec.relocate_fields {target : ℕ}
    (validDest : ∀ i < vec.mSize, memory.Valid (target, i))
    (validSource : ∀ i < vec.mSize, memory.Valid (vec.element i)) :
    (vec.relocate type memory target).blocks = memory.blocks ∧
    (vec.relocate type memory target).freed =
      (if vec.mData = 0 then memory.freed else vec.mData :: memory.freed) ∧
    (vec.relocate type memory target).wild = memory.wild := by
  have start (i : ℕ) : Address.offset (target, 0) i = (target, i) :=
    congrArg (Prod.mk target) (Nat.zero_add i)
  have origin (i : ℕ) : (vec.element 0).offset i = vec.element i :=
    congrArg (Prod.mk vec.mData) (Nat.zero_add i)
  have moving : Calm memory (constructMove type memory (target, 0) (vec.element 0) vec.mSize) := by
    refine calm_constructMove (fun i bound => ?_) fun i bound => ?_
    · exact start i ▸ validDest i bound
    · exact origin i ▸ validSource i bound
  set between := constructMove type memory (target, 0) (vec.element 0) vec.mSize with moved
  have ending : Calm between (destroy type between (vec.element 0) vec.mSize) :=
    calm_destroy fun i bound => (moving.valid_iff _).mpr (origin i ▸ validSource i bound)
  have whole := moving.trans ending
  unfold Vec.relocate Vec.free
  dsimp only
  rw [← moved]
  split_ifs
  · exact ⟨whole.blocks, whole.freed, whole.wild⟩
  · exact ⟨whole.blocks, congrArg (vec.mData :: ·) whole.freed, whole.wild⟩

/-- The capacity that a `setCopy` chooses; the largest `size` stands for none given. -/
def Vec.chosen (size capacity : ℕ) : ℕ := if capacity = 2 ^ 64 - 1 then size else capacity

/-- A capacity that is enough is chosen well, whether it is given or not. -/
theorem Vec.chosen_of_enough {size capacity : ℕ} (enough : size ≤ capacity)
    (fits : capacity * type.sizeOf < 2 ^ 64) :
    size ≤ Vec.chosen size capacity ∧ Vec.chosen size capacity * type.sizeOf < 2 ^ 64 := by
  unfold Vec.chosen
  split_ifs
  · exact ⟨le_refl _, lt_of_le_of_lt (Nat.mul_le_mul_right _ enough) fits⟩
  · exact ⟨enough, fits⟩

theorem Vec.chosen_fits {size capacity : ℕ} (fits : max size capacity * type.sizeOf < 2 ^ 64) :
    max size (Vec.chosen size capacity) * type.sizeOf < 2 ^ 64 := by
  refine lt_of_le_of_lt (Nat.mul_le_mul_right _ (max_le (le_max_left _ _) ?_)) fits
  unfold Vec.chosen
  split_ifs
  · exact le_max_left _ _
  · exact le_max_right _ _

/-- `setCopy` of a `Vec` after the elements that it had are destroyed. -/
theorem Vec.setCopy_eq {grants : ℕ → ℕ → Bool} {data : Util.Span T} {capacity : ℕ}
    {result : Memory T × Vec}
    (fits : max data.size (Vec.chosen data.size capacity) * type.sizeOf < 2 ^ 64)
    (ran : Vec.setCopy type grants memory vec data capacity = some result) :
    result = (constructCopy type
        (extended (destroy type memory (vec.element 0) vec.mSize)
          (max data.size (Vec.chosen data.size capacity)))
        ((destroy type memory (vec.element 0) vec.mSize).blocks.length, 0) data.data data.size,
        { vec with
          mData := (destroy type memory (vec.element 0) vec.mSize).blocks.length
          mSize := data.size
          mCapacity := Vec.chosen data.size capacity }) := by
  obtain ⟨⟨newData, fresh⟩, allocated, rfl⟩ := Option.map_eq_some_iff.mp ran
  obtain ⟨rfl, rfl⟩ := Vec.allocate_eq fits allocated
  rfl

section Calm

variable (valid : ∀ i < vec.mCapacity, memory.Valid (vec.element i))

/-- An operation keeps the block and stays within the capacity. -/
def Vec.Stays (memory : Memory T) (vec : Vec) (result : Memory T × Vec) : Prop :=
  Calm memory result.1 ∧ ∃ size ≤ vec.mCapacity, result.2 = { vec with mSize := size }

include valid

theorem Vec.stays_add {value : Reference T} {rvalue : Bool} {result : Memory T × Vec}
    (source : value.Valid memory)
    (ran : Vec.Base.add type memory vec value rvalue = some result) : vec.Stays memory result := by
  unfold Vec.Base.add at ran
  split_ifs at ran with room
  cases ran
  exact ⟨calm_constructAt (valid _ room) source rvalue, _, room, rfl⟩

/-- A move within the vector. -/
theorem Vec.calm_move {size dstIdx srcIdx amount : ℕ} (within : size ≤ vec.mCapacity)
    (neighbours : dstIdx = srcIdx + 1 ∨ srcIdx = dstIdx + 1)
    (ran : Vec.move type memory { vec with mSize := size } dstIdx srcIdx amount = some after) :
    Calm memory after := by
  unfold Vec.move at ran
  split_ifs at ran with nothing inside
  · cases ran
    exact Calm.refl memory
  · cases ran
    dsimp only at inside
    have covered (start : ℕ) (bound : start + amount < size) (i : ℕ) (_ : start ≤ i)
        (small : i ≤ start + amount) : memory.Valid (vec.mData, i) := valid i (by omega)
    rcases neighbours with rfl | rfl
    · exact (read_shiftUp type memory (covered srcIdx (by omega))).1
    · exact (read_shiftDown type memory (covered dstIdx (by omega))).1

theorem Vec.stays_insert {value : Reference T} {rvalue : Bool} {index : ℕ}
    {result : Memory T × Vec} (source : value.Valid memory)
    (ran : Vec.Base.insert type memory vec value rvalue index = some result) :
    vec.Stays memory result := by
  unfold Vec.Base.insert at ran
  split_ifs at ran with guards
  obtain ⟨between, moved, rfl⟩ := Option.map_eq_some_iff.mp ran
  have calm := Vec.calm_move valid (show vec.mSize + 1 ≤ vec.mCapacity from guards.1) (.inl rfl) moved
  refine ⟨calm.trans (calm_constructAt ?_ ((Reference.valid_congr calm).mpr source) rvalue), _,
    guards.1, rfl⟩
  exact (calm.valid_iff _).mpr (valid index (by omega))

theorem Vec.stays_append {data : Util.Span T} {result : Memory T × Vec}
    (sources : ∀ i < data.size, (data.data i).Valid memory)
    (ran : Vec.Base.append type memory vec data = some result) : vec.Stays memory result := by
  unfold Vec.Base.append at ran
  split_ifs at ran with room
  cases ran
  refine ⟨calm_constructCopy (fun i bound => ?_) sources, _, room, rfl⟩
  exact valid (vec.mSize + i) (by omega)

theorem Vec.stays_remove (sized : vec.mSize ≤ vec.mCapacity) {index : ℕ}
    {result : Option T × Memory T × Vec}
    (ran : Vec.Base.remove type memory vec index = some result) : vec.Stays memory result.2 := by
  have bound : index < vec.mSize := by
    by_contra outside
    rw [Vec.Base.remove, if_neg outside] at ran
    cases ran
  rw [Vec.Base.remove, if_pos bound] at ran
  obtain ⟨between, moved, rfl⟩ := Option.map_eq_some_iff.mp ran
  have place := valid index (by omega)
  have taken : Calm memory (((memory.touch (vec.element index)).retire type
      (vec.element index)).destroy type (vec.element index)) :=
    (Calm.touch place).trans (Calm.retire.trans (Calm.destroy place))
  refine ⟨taken.trans ?_, _, by omega, rfl⟩
  split_ifs at moved
  · refine Vec.calm_move (fun i inside => ?_) sized (.inr rfl) moved
    exact (taken.valid_iff _).mpr (valid i inside)
  · cases moved
    exact Calm.refl _

theorem Vec.stays_extend {value : Reference T} {newSize : ℕ} {result : Memory T × Vec}
    (source : value.Valid memory)
    (ran : Vec.Base.extend type memory vec newSize value = some result) : vec.Stays memory result := by
  unfold Vec.Base.extend at ran
  split_ifs at ran with guards
  cases ran
  refine ⟨calm_fill (fun i bound => ?_) source, _, guards.2, rfl⟩
  exact valid (vec.mSize + i) (by omega)

theorem Vec.stays_truncate (sized : vec.mSize ≤ vec.mCapacity) {newSize : ℕ}
    {result : Memory T × Vec}
    (ran : Vec.Base.truncate type memory vec newSize = some result) : vec.Stays memory result := by
  unfold Vec.Base.truncate at ran
  split_ifs at ran with shrinks
  cases ran
  refine ⟨calm_destroy fun i bound => ?_, _, le_trans shrinks sized, rfl⟩
  exact valid (newSize + i) (by omega)

theorem Vec.stays_resize (sized : vec.mSize ≤ vec.mCapacity) {value : Reference T} {newSize : ℕ}
    {result : Memory T × Vec} (source : value.Valid memory)
    (ran : Vec.Base.resize type memory vec newSize value = some result) : vec.Stays memory result := by
  unfold Vec.Base.resize at ran
  split_ifs at ran with same shrinks
  · cases ran
    exact ⟨Calm.refl memory, _, sized, rfl⟩
  · exact Vec.stays_truncate valid sized ran
  · exact Vec.stays_extend valid source ran

theorem Vec.stays_clear (sized : vec.mSize ≤ vec.mCapacity) :
    vec.Stays memory (Vec.Base.clear type memory vec) := by
  refine ⟨calm_destroy fun i bound => ?_, _, Nat.zero_le _, rfl⟩
  exact valid (0 + i) (by omega)

theorem Vec.stays_fixedSetCopy {data : Util.Span T}
    (sources : ∀ i < data.size, (data.data i).Valid memory) :
    vec.Stays memory (vec.fixedSetCopy type memory data) := by
  refine ⟨calm_copy (fun i bound => ?_) fun i bound => ?_, _, min_le_right _ _, rfl⟩
  · have within := lt_of_lt_of_le bound (min_le_right _ _)
    exact valid (0 + i) (by omega)
  · exact sources i (lt_of_lt_of_le bound (min_le_left _ _))

theorem Vec.stays_fixedSetMove (sources : ∀ i < vec'.mSize, memory.Valid (vec'.element i)) :
    vec.Stays memory (vec.fixedSetMove type memory vec') := by
  refine ⟨Util.calm_move (fun i bound => ?_) fun i bound => ?_, _, min_le_right _ _, rfl⟩
  · have within := lt_of_lt_of_le bound (min_le_right _ _)
    exact valid (0 + i) (by omega)
  · have within := lt_of_lt_of_le bound (min_le_left _ _)
    exact sources (0 + i) (by omega)

theorem Vec.stays_spanSetMove (sized : vec.mSize ≤ vec.mCapacity)
    (sources : ∀ i < vec'.mSize, memory.Valid (vec'.element i)) :
    vec.Stays memory (vec.spanSetMove type memory vec') := by
  refine ⟨Util.calm_move (fun i bound => ?_) fun i bound => ?_, _, sized, rfl⟩
  · have within := lt_of_lt_of_le bound (min_le_left _ _)
    exact valid (0 + i) (by omega)
  · have within := lt_of_lt_of_le bound (min_le_right _ _)
    exact sources (0 + i) (by omega)

end Calm

end Hakkun.Container
