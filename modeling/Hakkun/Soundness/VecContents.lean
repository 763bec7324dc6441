import Hakkun.Machine.Core.Run
import Hakkun.Model.Container.Vec
import Hakkun.Soundness.VecBlocks
import Mathlib.Tactic.Ring

/-! # Vectors as lists

Every operation on a vector is one on the list of its elements, as long as the arguments do not refer
to elements that the operation moves before it reads them: those of a block that growing frees, and
those at or above an insertion.
-/

namespace Hakkun.Container

open Machine Machine.Memory Util

variable {T : Type}

section Lists

variable (type : ObjectType T)

/-- The element that an argument refers to. -/
def Operand.index? : Operand Unit T → Option ℕ
  | .value _ => none
  | .element () index => some index

/-- The value of an argument. -/
def Operand.get (list : List T) : Operand Unit T → Option T
  | .value given => some given
  | .element () index => list[index]?

/-- The list after an argument was moved from. -/
def Operand.leave (list : List T) (rvalue : Bool) (operand : Operand Unit T) : List T :=
  match rvalue, operand.index? with
  | true, some index => list.modify index type.moved
  | _, _ => list

/-- The values of a span. -/
def SpanOperand.list (list : List T) : SpanOperand Unit T → List T
  | .values given => given
  | .elements () start count => (list.drop start).take count

/-- Insertion into a list. -/
def insertList (list : List T) (value : Operand Unit T) (rvalue : Bool) (index : ℕ) :
    Option (List T) :=
  if index ≤ list.length then
    (value.get list).map fun result => (value.leave type list rvalue).insertIdx index result
  else none

/-- An operation on a list. -/
def Operation.onList (list : List T) : Operation Unit T → Option (List T)
  | .add value rvalue =>
    (value.get list).map fun result => value.leave type list rvalue ++ [result]
  | .insert value rvalue index | .emplaceAt index value rvalue =>
    insertList type list value rvalue index
  | .pushFront value rvalue => insertList type list value rvalue 0
  | .append data => some (list ++ data.list list)
  | .remove index => if index < list.length then some (list.eraseIdx index) else none
  | .popBack => if 0 < list.length then some list.dropLast else none
  | .popFront => if 0 < list.length then some list.tail else none
  | .extend newSize extendValue =>
    if list.length ≤ newSize then
      (extendValue.get list).map fun result =>
        list ++ List.replicate (newSize - list.length) result
    else none
  | .resize newSize extendValue =>
    if newSize ≤ list.length then some (list.take newSize)
    else (extendValue.get list).map fun result =>
      list ++ List.replicate (newSize - list.length) result
  | .truncate newSize => if newSize ≤ list.length then some (list.take newSize) else none
  | .clear => some []
  | .reserve _ => some list

end Lists

section Condition

variable (type : ObjectType T)

/-- A growing operation does not read what it is about to free, or ask for too many bytes. -/
def Vec.GrowsWell (vec : Vec) (capacity : ℕ) (own : Bool) : Prop :=
  vec.Grows capacity → vec.Fits type capacity ∧ own = false

/-- An argument for an insertion is below the elements that are moved; a trivial one may be the
first of them. -/
def Operand.Below (index : ℕ) (operand : Operand Unit T) : Prop :=
  ∀ own ∈ operand.index?, own < index ∨ (type.trivial = true ∧ own = index)

def SpanOperand.isOwn : SpanOperand Unit T → Bool
  | .values _ => false
  | .elements () _ count => count != 0

/-- No argument refers to an element that is moved or freed before it is read, and no size in bytes
wraps around. -/
def Operation.Unaliased (vec : Vec) : Operation Unit T → Prop
  | .add value _ => vec.GrowsWell type (vec.mSize + 1) value.index?.isSome
  | .insert value _ index | .emplaceAt index value _ =>
    vec.GrowsWell type (vec.mSize + 1) value.index?.isSome ∧ value.Below type index
  | .pushFront value _ =>
    vec.GrowsWell type (vec.mSize + 1) value.index?.isSome ∧ value.Below type 0
  | .append data => vec.GrowsWell type (vec.mSize + data.size) data.isOwn
  | .extend newSize extendValue => vec.GrowsWell type newSize extendValue.index?.isSome
  | .resize newSize extendValue =>
    vec.GrowsWell type newSize (extendValue.index?.isSome && decide (vec.mSize < newSize))
  | .reserve capacity => vec.GrowsWell type capacity false
  | .remove _ | .popBack | .popFront | .truncate _ | .clear => True

instance (vec : Vec) (capacity : ℕ) (own : Bool) : Decidable (vec.GrowsWell type capacity own) :=
  inferInstanceAs (Decidable (_ → _ * _ < _ ∧ _))

instance (index : ℕ) (operand : Operand Unit T) : Decidable (operand.Below type index) :=
  inferInstanceAs (Decidable (∀ _ ∈ _, _))

instance (vec : Vec) (operation : Operation Unit T) : Decidable (operation.Unaliased type vec) := by
  cases operation <;> unfold Operation.Unaliased <;> infer_instance

end Condition

/-- A vector and memory hold the elements of a list. -/
structure Holds (memory : Memory T) (vec : Vec) (list : List T) : Prop where
  size : vec.mSize = list.length
  room : vec.mSize ≤ memory.blocks[vec.mData]?.getD 0
  capacity : vec.mCapacity ≤ memory.blocks[vec.mData]?.getD 0
  kept : vec.mData ∉ memory.freed
  placed : vec.mData < memory.blocks.length
  freed : ∀ block ∈ memory.freed, block < memory.blocks.length
  values : ∀ i < list.length, memory.read (vec.element i) = list[i]?

/-- What the elements of a vector are. -/
def Vec.contents (memory : Memory T) (vec : Vec) : List (Option T) :=
  (List.range vec.mSize).map fun i => memory.read (vec.element i)

section Facts

variable {type : ObjectType T} {memory after : Memory T} {vec : Vec} {list : List T}

theorem Holds.valid (holds : Holds memory vec list) {i : ℕ}
    (bound : i < memory.blocks[vec.mData]?.getD 0) : memory.Valid (vec.element i) :=
  ⟨bound, holds.kept⟩

theorem Holds.valid_of_lt (holds : Holds memory vec list) {i : ℕ} (bound : i < list.length) :
    memory.Valid (vec.element i) :=
  holds.valid (by have := holds.size; have := holds.room; omega)

theorem Holds.valid_offset (holds : Holds memory vec list) {index i : ℕ}
    (bound : index + i < memory.blocks[vec.mData]?.getD 0) :
    memory.Valid ((vec.element index).offset i) :=
  holds.valid bound

/-- The list is what the vector contains. -/
theorem Holds.contents_eq (holds : Holds memory vec list) :
    vec.contents memory = list.map some := by
  refine List.ext_getElem? fun i => ?_
  rw [Vec.contents, List.getElem?_map, List.getElem?_map, holds.size]
  by_cases bound : i < list.length
  · rw [List.getElem?_range bound, Option.map_some, holds.values i bound,
      List.getElem?_eq_getElem bound, Option.map_some]
  · rw [List.getElem?_eq_none (by simpa using bound), List.getElem?_eq_none (by omega)]
    rfl

/-- Another list in the same block. -/
theorem Holds.update (holds : Holds memory vec list) {list' : List T} {size : ℕ}
    (calm : Calm memory after) (width : size = list'.length)
    (room : size ≤ memory.blocks[vec.mData]?.getD 0)
    (values : ∀ i < list'.length, after.read (vec.element i) = list'[i]?) :
    Holds after { vec with mSize := size } list' where
  size := width
  room := by rw [calm.blocks]; exact room
  capacity := by rw [calm.blocks]; exact holds.capacity
  kept := by rw [calm.freed]; exact holds.kept
  placed := by rw [calm.blocks]; exact holds.placed
  freed := by rw [calm.freed, calm.blocks]; exact holds.freed
  values := values

variable (type) in
/-- The elements after the move to another block. -/
theorem Vec.read_relocate {target : ℕ} (apart : target ≠ vec.mData)
    (validDest : ∀ i < vec.mSize, memory.Valid (target, i))
    (validSource : ∀ i < vec.mSize, memory.Valid (vec.element i)) :
    (vec.relocate type memory target).blocks = memory.blocks ∧
    (∀ block ∈ (vec.relocate type memory target).freed,
      block = vec.mData ∨ block ∈ memory.freed) ∧
    ∀ i < vec.mSize, (vec.relocate type memory target).read (target, i) =
      memory.read (vec.element i) := by
  obtain ⟨calm, moved, -⟩ := read_constructMove type memory apart validDest validSource
  change Calm memory (constructMove type memory (target, 0) (vec.element 0) vec.mSize) at calm
  set between := constructMove type memory (target, 0) (vec.element 0) vec.mSize
  have destroyed : Calm between (Util.destroy type between (vec.element 0) vec.mSize) := by
    refine calm_destroy fun i bound => ?_
    rw [calm.valid_iff, vec.element_offset, Nat.zero_add]
    exact validSource i bound
  have whole := calm.trans destroyed
  obtain ⟨blocks, freed, others, -⟩ := Vec.free_cases
    (Util.destroy type between (vec.element 0) vec.mSize) vec
  rw [whole.freed] at freed
  rw [whole.blocks] at blocks
  refine ⟨blocks, freed, fun i bound => ?_⟩
  have outside : Outside (vec.element 0) vec.mSize (target, i) := fun j _ same =>
    apart (congrArg Prod.fst same)
  exact (read_congr (others _ apart)).trans ((read_destroy outside).trans (moved i bound))

/-- A larger block holds the same list. -/
theorem Holds.reserve (holds : Holds memory vec list) {grants : ℕ → ℕ → Bool} {capacity : ℕ}
    {vec' : Vec} (fits : vec.mCapacity < capacity → vec.Fits type capacity)
    (ran : vec.reserve type memory grants capacity = some (after, vec')) :
    Holds after vec' list ∧ ((after = memory ∧ vec' = vec) ∨ vec.mCapacity < capacity) := by
  rcases Vec.reserve_cases fits ran with ⟨-, rfl, rfl⟩ | ⟨grows, rfl, rfl⟩
  · exact ⟨holds, .inl ⟨rfl, rfl⟩⟩
  refine ⟨?_, .inr grows⟩
  set large := max vec.mSize capacity
  set new := memory.blocks.length with length
  have old := extended_old holds.placed
  have fresh : (extended memory large).blocks[new]? = some large := extended_new memory large
  have apart : new ≠ vec.mData := by
    have := holds.placed
    omega
  have newKept : new ∉ memory.freed := fun member => lt_irrefl _ (holds.freed _ member)
  have validDest (i : ℕ) (bound : i < vec.mSize) : (extended memory large).Valid (new, i) :=
    ⟨by rw [fresh]; exact lt_of_lt_of_le bound (le_max_left _ _), newKept⟩
  have validSource (i : ℕ) (bound : i < vec.mSize) : (extended memory large).Valid (vec.element i) :=
    ⟨by rw [Vec.element, old large]; exact lt_of_lt_of_le bound holds.room, holds.kept⟩
  obtain ⟨blocks, freed, values⟩ := Vec.read_relocate type apart validDest validSource
  refine ⟨holds.size, ?_, ?_, ?_, ?_, ?_, ?_⟩
  · rw [blocks, fresh]
    exact le_max_left _ _
  · rw [blocks, fresh]
    exact le_max_right _ _
  · intro member
    rcases freed new member with same | member
    · exact apart same
    · exact newKept member
  · rw [blocks]
    simp [extended, new]
  · intro block member
    rw [blocks]
    have width : (extended memory large).blocks.length = new + 1 := by simp [extended, new]
    rcases freed block member with rfl | member
    · have := holds.placed
      omega
    · have := holds.freed block member
      omega
  · intro i bound
    exact (values i (holds.size ▸ bound)).trans (holds.values i bound)

/-- What growing leaves: the same list, and without a new block the same state. -/
theorem Holds.grow (holds : Holds memory vec list) {grants : ℕ → ℕ → Bool} {capacity : ℕ}
    {own : Bool} {vec' : Vec} (well : vec.GrowsWell type capacity own)
    (ran : vec.grow type memory grants capacity = some (after, vec')) :
    Holds after vec' list ∧ ((after = memory ∧ vec' = vec) ∨ own = false) := by
  unfold Vec.grow at ran
  split at ran
  · rename_i heap
    obtain ⟨held, same | grows⟩ := holds.reserve (fun grows => (well ⟨heap, grows⟩).1) ran
    · exact ⟨held, .inl same⟩
    · exact ⟨held, .inr (well ⟨heap, grows⟩).2⟩
  · obtain ⟨rfl, rfl⟩ := Prod.mk.inj (Option.some.inj ran)
    exact ⟨holds, .inl ⟨rfl, rfl⟩⟩

/-- The value of an argument that is resolved in the vector itself. -/
theorem Holds.get_resolve (holds : Holds memory vec list) {operand : Operand Unit T} {value : T}
    (found : operand.get list = some value) :
    (operand.resolve fun _ => vec).get memory = some value ∧
      (operand.resolve fun _ => vec).Valid memory ∧ ∀ own ∈ operand.index?, own < list.length := by
  cases operand with
  | value given => exact ⟨found, trivial, fun own member => by cases member⟩
  | element var index =>
    obtain ⟨bound, -⟩ := List.getElem?_eq_some_iff.mp found
    refine ⟨(holds.values index bound).trans found, holds.valid_of_lt bound, ?_⟩
    rintro own ⟨⟩
    exact bound

variable (type) in
/-- The elements around a slot where an argument is constructed. -/
theorem read_constructAt_operand {place : ℕ} (valid : memory.Valid (vec.element place))
    {operand : Operand Unit T} {value : T}
    (found : (operand.resolve fun _ => vec).get memory = some value)
    (source : (operand.resolve fun _ => vec).Valid memory)
    (apart : ∀ own ∈ operand.index?, own ≠ place ∨ type.trivial = true) (rvalue : Bool) :
    let after := constructAt type memory (vec.element place) (operand.resolve fun _ => vec) rvalue
    Calm memory after ∧ after.read (vec.element place) = some value ∧
      ∀ i ≠ place, after.read (vec.element i) =
        if rvalue = true ∧ operand.index? = some i then
          (memory.read (vec.element i)).map type.moved
        else memory.read (vec.element i) := by
  have other {i j : ℕ} (different : i ≠ j) : vec.element i ≠ vec.element j := fun same =>
    different (congrArg Prod.snd same)
  refine ⟨calm_constructAt valid source rvalue, ?_⟩
  cases operand with
  | value given =>
    refine ⟨(read_construct_self valid _).trans found, fun i different => ?_⟩
    rw [if_neg (fun both => by cases both.2)]
    exact read_construct_of_ne (other different) _
  | element var own =>
    cases rvalue with
    | false =>
      refine ⟨(read_constructAt_self valid).trans found, fun i different => ?_⟩
      rw [if_neg (fun both => by cases both.1)]
      exact read_constructAt_of_ne (other different)
    | true =>
      by_cases same : own = place
      · subst same
        have trivial : type.trivial = true := (apart own rfl).resolve_left (fun ne => ne rfl)
        refine ⟨(read_moveAt_of_trivial trivial).trans ((read_constructAt_self valid).trans found),
          fun i different => ?_⟩
        rw [if_neg (fun both => different (Option.some.inj both.2).symm)]
        exact (read_moveAt_of_trivial trivial).trans (read_constructAt_of_ne (other different))
      · refine ⟨(read_moveAt_self valid (other (Ne.symm same))).trans found, fun i different => ?_⟩
        split_ifs with here
        · obtain rfl : own = i := Option.some.inj here.2
          exact read_moveAt_source (other same)
        · refine read_moveAt_of_ne (other different) (other fun equal => here ⟨rfl, ?_⟩)
          exact congrArg some equal.symm

/-- An element of the list after an argument was moved from. -/
theorem getElem?_leave (operand : Operand Unit T) (rvalue : Bool) (i : ℕ) :
    (operand.leave type list rvalue)[i]? =
      if rvalue = true ∧ operand.index? = some i then list[i]?.map type.moved else list[i]? := by
  unfold Operand.leave
  split
  · rename_i index there
    rw [there, List.getElem?_modify]
    by_cases same : index = i
    · rw [if_pos ⟨rfl, congrArg some same⟩]
      simp [same]
    · rw [if_neg (fun both => same (Option.some.inj both.2))]
      simp [same]
  · rename_i different
    rw [if_neg]
    rintro ⟨rfl, there⟩
    exact different i rfl there

theorem length_leave (operand : Operand Unit T) (rvalue : Bool) :
    (operand.leave type list rvalue).length = list.length := by
  unfold Operand.leave
  split
  · exact List.length_modify ..
  · rfl

/-- `add` appends the value. -/
theorem Holds.add (holds : Holds memory vec list) {operand : Operand Unit T} {value : T}
    (found : operand.get list = some value) {rvalue : Bool} {vec' : Vec}
    (ran : Vec.Base.add type memory vec (operand.resolve fun _ => vec) rvalue =
      some (after, vec')) :
    Holds after vec' (operand.leave type list rvalue ++ [value]) := by
  obtain ⟨read, source, own⟩ := holds.get_resolve found
  have size := holds.size
  unfold Vec.Base.add at ran
  split_ifs at ran with room
  obtain ⟨rfl, rfl⟩ := Prod.mk.inj (Option.some.inj ran)
  have inside := lt_of_lt_of_le room holds.capacity
  obtain ⟨calm, placed, others⟩ := read_constructAt_operand type (holds.valid inside) read source
    (fun index member => .inl (by have := own index member; omega)) rvalue
  refine holds.update calm (by simp [length_leave, size]) (by omega) fun i bound => ?_
  rw [List.length_append, length_leave, List.length_singleton] at bound
  rcases Nat.lt_succ_iff_lt_or_eq.mp bound with earlier | rfl
  · rw [others i (by omega), List.getElem?_append_left (by rw [length_leave]; exact earlier),
      getElem?_leave, holds.values i earlier]
  · rw [← size, placed, List.getElem?_append_right (by rw [length_leave, size]), length_leave, size]
    simp

variable (type) in
/-- The elements from an index on, one place further up. -/
theorem Holds.moveUp (holds : Holds memory vec list) {index : ℕ} (bound : index ≤ vec.mSize)
    (inside : vec.mSize < memory.blocks[vec.mData]?.getD 0) :
    ∃ between, Vec.move type memory { vec with mSize := vec.mSize + 1 } (index + 1) index
        (vec.mSize + 1 - 1 - index) = some between ∧ Calm memory between ∧
      (∀ i < index, between.read (vec.element i) = memory.read (vec.element i)) ∧
      (∀ i, index ≤ i → i < vec.mSize →
        between.read (vec.element (i + 1)) = memory.read (vec.element i)) ∧
      (type.trivial = true → between.read (vec.element index) = memory.read (vec.element index)) := by
  unfold Vec.move
  split_ifs with nothing guards
  · exact ⟨memory, rfl, Calm.refl memory, fun _ _ => rfl, fun i large small => by omega,
      fun _ => rfl⟩
  · have valid (i : ℕ) (_ : index ≤ i) (small : i ≤ index + (vec.mSize + 1 - 1 - index)) :
        memory.Valid (vec.mData, i) := holds.valid (by omega)
    obtain ⟨calm, kept, moved, trivially⟩ := read_shiftUp type memory valid
    exact ⟨_, rfl, calm, kept, fun i large small => moved i large (by omega), trivially⟩
  · exact absurd guards (by simp; omega)

variable (type) in
/-- The elements above an index, one place further down. -/
theorem Holds.moveDown (holds : Holds memory vec list) {index : ℕ} (bound : index < vec.mSize)
    (calm : Calm memory after) :
    ∃ between, (if index < vec.mSize - 1 then
        Vec.move type after vec index (index + 1) (vec.mSize - index - 1) else some after) =
          some between ∧ Calm memory between ∧
      (∀ i < index, between.read (vec.element i) = after.read (vec.element i)) ∧
      (∀ i, index ≤ i → i < vec.mSize - 1 →
        between.read (vec.element i) = after.read (vec.element (i + 1))) := by
  unfold Vec.move
  split_ifs with some nothing guards
  · omega
  · have room := holds.room
    have valid (i : ℕ) (_ : index ≤ i) (small : i ≤ index + (vec.mSize - index - 1)) :
        after.Valid (vec.mData, i) := (calm.valid_iff _).mpr (holds.valid (by omega))
    obtain ⟨moving, kept, moved⟩ := read_shiftDown type after valid
    exact ⟨_, rfl, calm.trans moving, kept, fun i large small => moved i large (by omega)⟩
  · exact absurd guards (by simp; omega)
  · exact ⟨after, rfl, calm, fun _ _ => rfl, fun i large small => by omega⟩

/-- `insert` inserts the value. -/
theorem Holds.insert (holds : Holds memory vec list) {operand : Operand Unit T} {value : T}
    (found : operand.get list = some value) {rvalue : Bool} {index : ℕ} {vec' : Vec}
    (below : operand.Below type index)
    (ran : Vec.Base.insert type memory vec (operand.resolve fun _ => vec) rvalue index =
      some (after, vec')) :
    insertList type list operand rvalue index =
        some ((operand.leave type list rvalue).insertIdx index value) ∧
      Holds after vec' ((operand.leave type list rvalue).insertIdx index value) := by
  obtain ⟨read, source, own⟩ := holds.get_resolve found
  have size := holds.size
  unfold Vec.Base.insert at ran
  split_ifs at ran with guards
  obtain ⟨room, bound⟩ := guards
  have inside := lt_of_lt_of_le room holds.capacity
  refine ⟨by rw [insertList, if_pos (size ▸ bound), found, Option.map_some], ?_⟩
  obtain ⟨between, moved, calm, kept, up, trivially⟩ := holds.moveUp type bound inside
  dsimp only at ran
  rw [moved, Option.map_some] at ran
  obtain ⟨rfl, rfl⟩ := Prod.mk.inj (Option.some.inj ran)
  -- the argument is still what it was
  have same : (operand.resolve fun _ => vec).get between = some value := by
    cases operand with
    | value given => exact read
    | element var place =>
      rcases below place rfl with lower | ⟨trivial, rfl⟩
      · exact (kept place lower).trans read
      · exact (trivially trivial).trans read
  obtain ⟨building, placed, others⟩ := read_constructAt_operand type
    ((calm.valid_iff _).mpr (holds.valid (lt_of_le_of_lt bound inside))) same
    ((Reference.valid_congr calm).mpr source)
    (fun index member => (below index member).imp Nat.ne_of_lt And.left) rvalue
  change Holds (constructAt type between (vec.element index) (operand.resolve fun _ => vec) rvalue)
    { vec with mSize := vec.mSize + 1 } _
  refine holds.update (calm.trans building) ?_ (by omega) fun i small => ?_
  · rw [List.length_insertIdx, length_leave, if_pos (by omega), size]
  rw [List.length_insertIdx, length_leave, if_pos (by omega)] at small
  rw [List.getElem?_insertIdx]
  rcases lt_trichotomy i index with lower | rfl | upper
  · rw [if_pos lower, others i (by omega), kept i lower, getElem?_leave, holds.values i (by omega)]
  · rw [if_neg (lt_irrefl _), if_pos rfl, if_pos (by rw [length_leave]; omega)]
    exact placed
  · obtain ⟨i, rfl⟩ : ∃ j, i = j + 1 := ⟨i - 1, by omega⟩
    have away : ¬ (rvalue = true ∧ operand.index? = some (i + 1)) := by
      rintro ⟨-, there⟩
      rcases below _ there with lower | ⟨-, equal⟩ <;> omega
    rw [if_neg (by omega), if_neg (by omega), others (i + 1) (by omega), if_neg away,
      up i (by omega) (by omega), Nat.add_sub_cancel, getElem?_leave, holds.values i (by omega)]
    split_ifs with here
    · -- only the first of the moved elements, which is trivial, can be the argument
      obtain ⟨trivial, -⟩ := (below i here.2).resolve_left (by omega)
      rw [List.getElem?_eq_getElem (by omega), Option.map_some, type.moved_of_trivial trivial]
    · rfl

/-- `remove` takes the element out. -/
theorem Holds.remove (holds : Holds memory vec list) {index : ℕ} {result : Option T} {vec' : Vec}
    (ran : Vec.Base.remove type memory vec index = some (result, after, vec')) :
    index < list.length ∧ result = list[index]? ∧ Holds after vec' (list.eraseIdx index) := by
  have size := holds.size
  have bound : index < vec.mSize := by
    by_contra outside
    rw [Vec.Base.remove, if_neg outside] at ran
    cases ran
  rw [Vec.Base.remove, if_pos bound] at ran
  have inside : index < list.length := size ▸ bound
  have valid := holds.valid_of_lt inside
  have taken : Calm memory (((memory.touch (vec.element index)).retire type
      (vec.element index)).destroy type (vec.element index)) :=
    (Calm.touch valid).trans (Calm.retire.trans (Calm.destroy valid))
  have rest (i : ℕ) (different : i ≠ index) : (((memory.touch (vec.element index)).retire type
      (vec.element index)).destroy type (vec.element index)).read (vec.element i) =
        memory.read (vec.element i) := by
    have apart : vec.element i ≠ vec.element index := fun same =>
      different (congrArg Prod.snd same)
    rw [read_destroy_of_ne apart, read_retire_of_ne apart, read_touch]
  obtain ⟨between, moved, calm, kept, down⟩ := holds.moveDown type bound taken
  dsimp only at ran
  rw [moved, Option.map_some] at ran
  obtain ⟨rfl, equal⟩ := Prod.mk.inj (Option.some.inj ran)
  obtain ⟨rfl, rfl⟩ := Prod.mk.inj equal
  refine ⟨inside, holds.values index inside, ?_⟩
  have room := holds.room
  refine holds.update calm (by rw [List.length_eraseIdx_of_lt inside, size]) (by omega) fun i small => ?_
  rw [List.length_eraseIdx_of_lt inside] at small
  rw [List.getElem?_eraseIdx]
  split_ifs with lower
  · rw [kept i lower, rest i (by omega), holds.values i (by omega)]
  · rw [down i (by omega) (by omega), rest (i + 1) (by omega), holds.values (i + 1) (by omega)]

/-- The elements of a span argument. -/
theorem Holds.get_span (holds : Holds memory vec list) {data : SpanOperand Unit T}
    (allowed : data.Allowed fun _ => vec.mSize) :
    (data.list list).length = data.size ∧ ∀ i < data.size,
      ((data.resolve fun _ => vec).data i).get memory = (data.list list)[i]? ∧
      ((data.resolve fun _ => vec).data i).Valid memory ∧
      ((data.resolve fun _ => vec).data i).Apart (vec.element vec.mSize) data.size := by
  have size := holds.size
  cases data with
  | values given =>
    refine ⟨rfl, fun i (bound : i < given.length) => ?_⟩
    have element : ((SpanOperand.values given : SpanOperand Unit T).resolve fun _ => vec).data i =
        .temporary given[i] := by
      simp [SpanOperand.resolve, SpanOperand.get, bound, Operand.resolve]
    rw [element]
    exact ⟨(List.getElem?_eq_getElem bound).symm, trivial, trivial⟩
  | elements var start count =>
    change start + count ≤ vec.mSize at allowed
    refine ⟨by simp [SpanOperand.list, SpanOperand.size]; omega, fun i (bound : i < count) => ?_⟩
    have element : ((SpanOperand.elements var start count : SpanOperand Unit T).resolve
        fun _ => vec).data i = .element (vec.element (start + i)) := by
      simp [SpanOperand.resolve, SpanOperand.get, bound, Operand.resolve]
    rw [element]
    refine ⟨?_, holds.valid_of_lt (by omega), Vec.outside_of_lt (by omega)⟩
    refine (holds.values (start + i) (by omega)).trans ?_
    rw [SpanOperand.list, List.getElem?_take_of_lt bound, List.getElem?_drop]

/-- `append` appends the elements of the span. -/
theorem Holds.append (holds : Holds memory vec list) {data : SpanOperand Unit T}
    (allowed : data.Allowed fun _ => vec.mSize) {vec' : Vec}
    (ran : Vec.Base.append type memory vec (data.resolve fun _ => vec) = some (after, vec')) :
    Holds after vec' (list ++ data.list list) := by
  obtain ⟨length, elements⟩ := holds.get_span allowed
  have size := holds.size
  have capacity := holds.capacity
  unfold Vec.Base.append at ran
  split_ifs at ran with room
  obtain ⟨rfl, rfl⟩ := Prod.mk.inj (Option.some.inj ran)
  change vec.mSize + data.size ≤ vec.mCapacity at room
  change Holds (constructCopy type memory (vec.element vec.mSize)
    (data.resolve fun _ => vec).data data.size) { vec with mSize := vec.mSize + data.size } _
  have valid (i : ℕ) (bound : i < data.size) :
      memory.Valid ((vec.element vec.mSize).offset i) := holds.valid_offset (by omega)
  obtain ⟨calm, copied, others⟩ := read_constructCopy type valid fun i bound => (elements i bound).2
  refine holds.update calm (by rw [List.length_append, length, size]) (by omega) fun i bound => ?_
  rw [List.length_append, length] at bound
  rcases Nat.lt_or_ge i list.length with earlier | later
  · rw [List.getElem?_append_left earlier, ← holds.values i earlier]
    exact others _ (Vec.outside_of_lt (by omega))
  · obtain ⟨j, rfl⟩ := Nat.exists_eq_add_of_le later
    rw [List.getElem?_append_right later, Nat.add_sub_cancel_left, ← size]
    exact (copied j (by omega)).trans (elements j (by omega)).1

/-- `extend` appends copies of the value. -/
theorem Holds.extend (holds : Holds memory vec list) {operand : Operand Unit T} {value : T}
    (found : operand.get list = some value) {newSize : ℕ} {vec' : Vec}
    (ran : Vec.Base.extend type memory vec newSize (operand.resolve fun _ => vec) =
      some (after, vec')) :
    list.length ≤ newSize ∧
      Holds after vec' (list ++ List.replicate (newSize - list.length) value) := by
  obtain ⟨read, source, own⟩ := holds.get_resolve found
  have size := holds.size
  have capacity := holds.capacity
  unfold Vec.Base.extend at ran
  split_ifs at ran with guards
  obtain ⟨grows, room⟩ := guards
  obtain ⟨rfl, rfl⟩ := Prod.mk.inj (Option.some.inj ran)
  refine ⟨size ▸ grows, ?_⟩
  have valid (i : ℕ) (bound : i < newSize - vec.mSize) :
      memory.Valid ((vec.element vec.mSize).offset i) := holds.valid_offset (by omega)
  have apart : (operand.resolve fun _ => vec).Apart (vec.element vec.mSize)
      (newSize - vec.mSize) := by
    cases operand with
    | value given => trivial
    | element var place =>
      have := own place rfl
      exact Vec.outside_of_lt (by omega)
  obtain ⟨calm, filled, others⟩ := read_fill type valid source apart
  refine holds.update calm (by simp; omega) (by omega) fun i bound => ?_
  rw [List.length_append, List.length_replicate] at bound
  rcases Nat.lt_or_ge i list.length with earlier | later
  · rw [List.getElem?_append_left earlier, ← holds.values i earlier]
    exact others _ (Vec.outside_of_lt (by omega))
  · obtain ⟨j, rfl⟩ := Nat.exists_eq_add_of_le later
    rw [List.getElem?_append_right later, Nat.add_sub_cancel_left,
      List.getElem?_replicate_of_lt (by omega), ← size]
    exact (filled j (by omega)).trans read

/-- `truncate` keeps the first elements. -/
theorem Holds.truncate (holds : Holds memory vec list) {newSize : ℕ} {vec' : Vec}
    (ran : Vec.Base.truncate type memory vec newSize = some (after, vec')) :
    newSize ≤ list.length ∧ Holds after vec' (list.take newSize) := by
  have size := holds.size
  have room := holds.room
  unfold Vec.Base.truncate at ran
  split_ifs at ran with shrinks
  obtain ⟨rfl, rfl⟩ := Prod.mk.inj (Option.some.inj ran)
  refine ⟨size ▸ shrinks, ?_⟩
  have calm : Calm memory (destroy type memory (vec.element newSize) (vec.mSize - newSize)) :=
    calm_destroy fun i bound => holds.valid_offset (by omega)
  refine holds.update calm (by simp; omega) (by omega) fun i bound => ?_
  rw [List.length_take] at bound
  rw [List.getElem?_take_of_lt (by omega), ← holds.values i (by omega)]
  exact read_destroy (Vec.outside_of_lt (by omega))

end Facts

section Runs

variable {type : ObjectType T} {grants : ℕ → ℕ → Bool} {memory : Memory T} {vec : Vec}
  {list : List T} {after : Memory T × Vec}

theorem Operand.get_of_allowed {operand : Operand Unit T}
    (allowed : operand.Allowed fun _ => list.length) : ∃ value, operand.get list = some value := by
  cases operand with
  | value given => exact ⟨given, rfl⟩
  | element var index => exact ⟨list[index], List.getElem?_eq_getElem allowed⟩

/-- An argument that growing does not free is the same afterwards. -/
theorem Operand.resolve_eq {operand : Operand Unit T} {before between : Memory T} {vec' : Vec}
    (same : (between = before ∧ vec' = vec) ∨ operand.index?.isSome = false) :
    (operand.resolve fun _ => vec) = operand.resolve fun _ => vec' := by
  rcases same with ⟨-, rfl⟩ | none
  · rfl
  · cases operand with
    | value given => rfl
    | element var index => cases none

theorem SpanOperand.resolve_eq {data : SpanOperand Unit T} {before between : Memory T} {vec' : Vec}
    (same : (between = before ∧ vec' = vec) ∨ data.isOwn = false) :
    (data.resolve fun _ => vec) = data.resolve fun _ => vec' := by
  rcases same with ⟨-, rfl⟩ | none
  · rfl
  · cases data with
    | values given =>
      simp only [SpanOperand.resolve, SpanOperand.get, Option.map_map]
      rfl
    | elements var start count =>
      obtain rfl : count = 0 := by simpa [SpanOperand.isOwn] using none
      rfl

/-- `insert` of a vector that may grow. -/
theorem Holds.insert_grown (holds : Holds memory vec list) {operand : Operand Unit T}
    (allowed : operand.Allowed fun _ => vec.mSize) {rvalue : Bool} {index : ℕ}
    (well : vec.GrowsWell type (vec.mSize + 1) operand.index?.isSome)
    (below : operand.Below type index)
    (ran : vec.insert type memory grants (operand.resolve fun _ => vec) rvalue index =
      some after) :
    ∃ list', insertList type list operand rvalue index = some list' ∧
      Holds after.1 after.2 list' := by
  rw [holds.size] at allowed
  obtain ⟨value, found⟩ := Operand.get_of_allowed allowed
  simp only [Vec.insert, Option.bind_eq_bind, Option.bind_eq_some_iff] at ran
  obtain ⟨⟨between, vec'⟩, grown, ran⟩ := ran
  obtain ⟨held, same⟩ := holds.grow well grown
  rw [Operand.resolve_eq same] at ran
  exact ⟨_, held.insert found below ran⟩

/-- One operation. -/
theorem Holds.step (holds : Holds memory vec list) {operation : Operation Unit T}
    (unaliased : operation.Unaliased type vec)
    (stepped : Vec.step type grants (memory, vec) operation = some after) :
    ∃ list', operation.onList type list = some list' ∧ Holds after.1 after.2 list' := by
  have size := holds.size
  unfold Vec.step at stepped
  split_ifs at stepped with allowed
  cases operation with
  | add operand rvalue =>
    obtain ⟨value, found⟩ := Operand.get_of_allowed (size ▸ allowed)
    simp only [Operation.run, Vec.add, Option.bind_eq_bind, Option.bind_eq_some_iff] at stepped
    obtain ⟨⟨between, vec'⟩, grown, ran⟩ := stepped
    obtain ⟨held, same⟩ := holds.grow unaliased grown
    rw [Operand.resolve_eq same] at ran
    exact ⟨_, by rw [Operation.onList, found]; rfl, held.add found ran⟩
  | insert operand rvalue index =>
    exact holds.insert_grown allowed unaliased.1 unaliased.2 stepped
  | emplaceAt index operand rvalue =>
    exact holds.insert_grown allowed unaliased.1 unaliased.2 stepped
  | pushFront operand rvalue =>
    exact holds.insert_grown allowed unaliased.1 unaliased.2 stepped
  | append data =>
    simp only [Operation.run, Vec.append, Option.bind_eq_bind, Option.bind_eq_some_iff] at stepped
    obtain ⟨⟨between, vec'⟩, grown, ran⟩ := stepped
    obtain ⟨held, same⟩ := holds.grow unaliased grown
    rw [SpanOperand.resolve_eq same] at ran
    change data.Allowed fun _ => vec.mSize at allowed
    rw [size, ← held.size] at allowed
    exact ⟨_, rfl, held.append allowed ran⟩
  | remove index =>
    obtain ⟨⟨result, state⟩, ran, rfl⟩ := Option.map_eq_some_iff.mp stepped
    obtain ⟨bound, -, held⟩ := holds.remove ran
    exact ⟨_, if_pos bound, held⟩
  | popBack =>
    obtain ⟨⟨result, state⟩, ran, rfl⟩ := Option.map_eq_some_iff.mp stepped
    unfold Vec.Base.popBack at ran
    split_ifs at ran with some
    obtain ⟨-, -, held⟩ := holds.remove ran
    refine ⟨_, if_pos (size ▸ some), ?_⟩
    rw [size] at held
    rwa [List.eraseIdx_length_sub_one] at held
  | popFront =>
    obtain ⟨⟨result, state⟩, ran, rfl⟩ := Option.map_eq_some_iff.mp stepped
    unfold Vec.Base.popFront at ran
    split_ifs at ran with some
    obtain ⟨-, -, held⟩ := holds.remove ran
    refine ⟨_, if_pos (size ▸ some), ?_⟩
    rwa [List.eraseIdx_zero] at held
  | extend newSize operand =>
    obtain ⟨value, found⟩ := Operand.get_of_allowed (size ▸ allowed)
    simp only [Operation.run, Vec.extend, Option.bind_eq_bind, Option.bind_eq_some_iff] at stepped
    obtain ⟨⟨between, vec'⟩, grown, ran⟩ := stepped
    obtain ⟨held, same⟩ := holds.grow unaliased grown
    rw [Operand.resolve_eq same] at ran
    obtain ⟨grows, held⟩ := held.extend found ran
    exact ⟨_, by rw [Operation.onList, if_pos grows, found]; rfl, held⟩
  | resize newSize operand =>
    obtain ⟨value, found⟩ := Operand.get_of_allowed (size ▸ allowed)
    simp only [Operation.run, Vec.resize, Option.bind_eq_bind, Option.bind_eq_some_iff] at stepped
    obtain ⟨⟨between, vec'⟩, grown, ran⟩ := stepped
    obtain ⟨held, same⟩ := holds.grow unaliased grown
    have size' := held.size
    unfold Vec.Base.resize at ran
    dsimp only at ran
    split_ifs at ran with equal shrinks
    · cases ran
      refine ⟨list, ?_, held⟩
      rw [Operation.onList, if_pos (by omega), List.take_of_length_le (by omega)]
    · obtain ⟨bound, held⟩ := held.truncate ran
      exact ⟨_, if_pos bound, held⟩
    · have growing : vec.mSize < newSize := by omega
      rw [decide_eq_true growing, Bool.and_true] at same
      rw [Operand.resolve_eq same] at ran
      obtain ⟨grows, held⟩ := held.extend found ran
      exact ⟨_, by rw [Operation.onList, if_neg (by omega), found]; rfl, held⟩
  | truncate newSize =>
    obtain ⟨bound, held⟩ := holds.truncate stepped
    exact ⟨_, if_pos bound, held⟩
  | clear =>
    have ran : Vec.Base.truncate type memory vec 0 = some after :=
      (if_pos (Nat.zero_le _)).trans stepped
    obtain ⟨-, held⟩ := holds.truncate ran
    exact ⟨_, rfl, held⟩
  | reserve capacity =>
    obtain ⟨held, -⟩ := holds.grow unaliased stepped
    exact ⟨list, rfl, held⟩

/-- Over every run whose arguments are not moved or freed before they are read, from any vector that
holds a list, what the vector contains is what the same operations make of the list. -/
theorem contents_of_run (start : Memory T × Vec) {final : Memory T × Vec}
    {path : List (Operation Unit T)}
    (holds : Holds start.1 start.2 list)
    (unaliased : RunMeets (Vec.step type grants) (fun state operation =>
      operation.Unaliased type state.2) start path)
    (ran : run (Vec.step type grants) start path = some final) :
    ∃ list', path.foldlM (Operation.onList type) list = some list' ∧
      final.2.contents final.1 = list'.map some := by
  induction path generalizing start list with
  | nil =>
    obtain rfl : start = final := Option.some.inj ran
    exact ⟨list, rfl, holds.contents_eq⟩
  | cons operation rest ih =>
    rw [run_cons, Option.bind_eq_some_iff] at ran
    obtain ⟨next, stepped, ran⟩ := ran
    obtain ⟨list', onList, holds⟩ := holds.step unaliased.1 stepped
    obtain ⟨last, folded, contents⟩ := ih next holds (unaliased.2 next stepped) ran
    refine ⟨last, ?_, contents⟩
    rw [List.foldlM_cons, onList]
    exact folded

end Runs

/-- Integers of eight bytes. -/
def word : ObjectType ℕ where
  trivial := true
  moved := id
  sizeOf := 8
  moved_of_trivial _ _ := rfl
  sizeOf_pos := Nat.succ_pos 7

/-- Memory with one block, whose first slots hold 1 and 2. -/
def twoWords (count : ℕ) : Memory ℕ where
  slots
    | (1, 0) => some ⟨some 1, 0⟩
    | (1, 1) => some ⟨some 2, 1⟩
    | _ => none
  blocks := [0, count]
  constructed := 2

theorem holds_twoWords (storage : Storage) {count : ℕ} (enough : 2 ≤ count) :
    Holds (twoWords count) ⟨storage, 1, 2, count⟩ [1, 2] where
  size := rfl
  room := enough
  capacity := le_refl _
  kept := List.not_mem_nil
  placed := Nat.lt_succ_self 1
  freed _ member := absurd member List.not_mem_nil
  values
    | 0, _ => rfl
    | 1, _ => rfl

/-- A `Vec` that grows, and arguments that refer to its own elements. -/
def ownPath : List (Operation Unit ℕ) :=
  [.add (.value 3) false, .reserve 8, .add (.element () 0) false,
    .insert (.element () 0) false 1, .append (.elements () 0 2), .remove 0, .popBack,
    .resize 6 (.element () 0), .truncate 2]

/-- The state after that path. -/
def ownState : Memory ℕ × Vec :=
  (run (Vec.step word fun _ _ => true) (twoWords 2, ⟨.vec, 1, 2, 2⟩) ownPath).getD
    ({}, ⟨.vec, 0, 0, 0⟩)

theorem contents_of_run_own : ∃ list', ownPath.foldlM (Operation.onList word) [1, 2] = some list' ∧
    ownState.2.contents ownState.1 = list'.map some := by
  have ran : run (Vec.step word fun _ _ => true) (twoWords 2, ⟨.vec, 1, 2, 2⟩) ownPath =
    some ownState := rfl
  exact contents_of_run _ (holds_twoWords .vec (le_refl 2)) (by decide) ran

/-- An element that is inserted in front of itself is read after it was moved. -/
theorem insert_own_not_list : ¬ ∀ (start final : Memory ℕ × Vec) (list : List ℕ)
    (path : List (Operation Unit ℕ)), Holds start.1 start.2 list →
      run (Vec.step word fun _ _ => true) start path = some final →
        ∃ list', path.foldlM (Operation.onList word) list = some list' ∧
          final.2.contents final.1 = list'.map some := by
  intro always
  obtain ⟨list', expected, contents⟩ := always (twoWords 4, ⟨.fixedVec, 1, 2, 4⟩) _ [1, 2]
    [.insert (.element () 1) false 0] (holds_twoWords .fixedVec (by decide)) rfl
  obtain rfl : [2, 1, 2] = list' := Option.some.inj expected
  exact absurd contents (by decide)

end Hakkun.Container
