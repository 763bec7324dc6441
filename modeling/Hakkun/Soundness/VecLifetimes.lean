import Hakkun.Soundness.VecBuffers

/-! # Lifetimes of elements

The slots of a vector hold objects exactly below its size. What breaks this: growing by `extend` or
`resize` fills slots as if they held objects, and the assignments of a `FixedVec` assign to as many
slots as the other vector has elements.
-/

namespace Hakkun.Container

open Machine Machine.Memory Util

variable {Var T : Type} {type : ObjectType T} {memory after : Memory T} {vec vec' : Vec}

/-- A vector with objects below its size, and room for its capacity. -/
structure Vec.Filled (memory : Memory T) (vec : Vec) : Prop where
  live : ∀ i, memory.Live (vec.element i) ↔ i < vec.mSize
  room : ∀ i < max vec.mSize vec.mCapacity, memory.Valid (vec.element i)

/-- An operation keeps the block of a vector, and there are objects below the new size. -/
structure Vec.Lasts (memory : Memory T) (vec : Vec) (result : Memory T × Vec) : Prop where
  calm : Calm memory result.1
  sound : Sound result.1
  size : ∃ size ≤ max vec.mSize vec.mCapacity, result.2 = { vec with mSize := size }
  live : ∀ i, result.1.Live (vec.element i) ↔ i < result.2.mSize
  others : ∀ other : Address, other.1 ≠ vec.mData → (result.1.Live other ↔ memory.Live other)

theorem element_inj {i j : ℕ} : vec.element i = vec.element j ↔ i = j :=
  ⟨fun same => congrArg Prod.snd same, congrArg _⟩

theorem element_ne {other : Address} (elsewhere : other.1 ≠ vec.mData) (i : ℕ) :
    other ≠ vec.element i := fun same => elsewhere (congrArg Prod.fst same)

theorem not_outside_element {index amount i : ℕ} :
    ¬ Outside (vec.element index) amount (vec.element i) ↔ index ≤ i ∧ i < index + amount := by
  rw [not_outside_iff]
  constructor
  · rintro ⟨j, bound, same⟩
    have place : i = index + j := congrArg Prod.snd same
    omega
  · rintro ⟨above, below⟩
    refine ⟨i - index, by omega, ?_⟩
    rw [Vec.element_offset, Nat.add_sub_cancel' above]

theorem outside_element {index amount : ℕ} {other : Address} (elsewhere : other.1 ≠ vec.mData) :
    Outside (vec.element index) amount other := fun i _ => element_ne elsewhere (index + i)

/-- A move within a vector is the loop that moves the elements, also of none. -/
theorem Vec.move_eq {dstIdx srcIdx amount : ℕ} (different : dstIdx ≠ srcIdx)
    (ran : vec.move type memory dstIdx srcIdx amount = some after) :
    after = constructMoveOverlapping type memory (vec.element dstIdx) (vec.element srcIdx) amount := by
  unfold Vec.move at ran
  split_ifs at ran with nothing inside
  · obtain rfl := nothing.resolve_left different
    obtain rfl := Option.some.inj ran
    unfold constructMoveOverlapping
    split_ifs <;> rfl
  · exact (Option.some.inj ran).symm

section Base

variable (sound : Sound memory) (filled : vec.Filled memory)

include sound filled

theorem Vec.lasts_add {value : Reference T} {rvalue : Bool} {result : Memory T × Vec}
    (source : value.Live memory)
    (ran : Vec.Base.add type memory vec value rvalue = some result) : vec.Lasts memory result := by
  unfold Vec.Base.add at ran
  split_ifs at ran with room
  cases ran
  have valid := filled.room vec.mSize (lt_of_lt_of_le room (le_max_right _ _))
  have dead : ¬ memory.Live (vec.element vec.mSize) := fun live =>
    absurd ((filled.live _).mp live) (lt_irrefl _)
  obtain ⟨built, live⟩ := sound_constructAt type sound valid dead source rvalue
  refine ⟨calm_constructAt valid (Reference.valid_of_live sound source) rvalue, built,
    ⟨_, le_trans room (le_max_right _ _), rfl⟩, fun i => ?_, fun other elsewhere => ?_⟩
  · rw [live, filled.live, element_inj]
    dsimp only
    omega
  · rw [live, or_iff_right (element_ne elsewhere _)]

variable (observed : type.trivial = false)

include observed

theorem Vec.lasts_insert {value : Reference T} {rvalue : Bool} {index : ℕ}
    {result : Memory T × Vec} (source : value.Live memory)
    (apart : value ≠ .element (vec.element index))
    (ran : Vec.Base.insert type memory vec value rvalue index = some result) :
    vec.Lasts memory result := by
  unfold Vec.Base.insert at ran
  split_ifs at ran with guards
  obtain ⟨room, bound⟩ := guards
  obtain ⟨between, moved, rfl⟩ := Option.map_eq_some_iff.mp ran
  obtain ⟨count, last⟩ := Nat.exists_eq_add_of_le bound
  have amount : vec.mSize + 1 - 1 - index = count := by omega
  dsimp only at moved
  rw [amount] at moved
  have within : vec.mSize < max vec.mSize vec.mCapacity := lt_of_lt_of_le room (le_max_right _ _)
  have valid (i : ℕ) (_ : index ≤ i) (below : i ≤ index + count) :
      memory.Valid (vec.mData, i) := filled.room i (by omega)
  have dead : ¬ memory.Live (vec.mData, index + count) := fun live => by
    have := (filled.live _).mp live
    omega
  have sources (i : ℕ) (_ : index ≤ i) (below : i < index + count) : memory.Live (vec.mData, i) :=
    (filled.live i).mpr (by omega)
  have calm := (read_shiftUp type memory valid).1
  obtain ⟨shifted, live⟩ := sound_shiftUp observed sound valid dead sources
  obtain rfl := Vec.move_eq (Nat.succ_ne_self index) moved
  have place := (calm.valid_iff _).mpr (valid index (le_refl _) (Nat.le_add_right _ _))
  have hole := fun there => ((live (vec.mData, index)).mp there).1 rfl
  have source' := Reference.live_of_forall source fun address given held =>
    (live address).mpr ⟨fun same => apart (given.trans (congrArg _ same)), .inr held⟩
  obtain ⟨built, live'⟩ := sound_constructAt type shifted place hole source' rvalue
  refine ⟨calm.trans (calm_constructAt place (Reference.valid_of_live shifted source') rvalue), built,
    ⟨_, within, rfl⟩, fun i => ?_, fun other elsewhere => ?_⟩
  · refine (live' _).trans ?_
    rw [live]
    change vec.element i = vec.element index ∨ vec.element i ≠ vec.element index ∧
      (vec.element i = vec.element (index + count) ∨ memory.Live (vec.element i)) ↔ i < vec.mSize + 1
    rw [filled.live, element_inj, ne_eq, element_inj, element_inj]
    omega
  · refine (live' other).trans ?_
    rw [or_iff_right (show other ≠ (vec.mData, index) from element_ne elsewhere index), live,
      and_iff_right (show other ≠ (vec.mData, index) from element_ne elsewhere index),
      or_iff_right (show other ≠ (vec.mData, index + count) from element_ne elsewhere _)]

omit observed in
theorem Vec.lasts_append {data : Util.Span T} {result : Memory T × Vec}
    (sources : ∀ i < data.size, (data.data i).Live memory)
    (ran : Vec.Base.append type memory vec data = some result) : vec.Lasts memory result := by
  unfold Vec.Base.append at ran
  split_ifs at ran with room
  cases ran
  have valid (i : ℕ) (bound : i < data.size) :
      memory.Valid ((vec.element vec.mSize).offset i) :=
    filled.room (vec.mSize + i) (lt_max_of_lt_right (by omega))
  have dead (i : ℕ) (bound : i < data.size) :
      ¬ memory.Live ((vec.element vec.mSize).offset i) := fun live => by
    have := (filled.live (vec.mSize + i)).mp live
    omega
  obtain ⟨built, live⟩ := sound_constructs type false sound valid dead sources
  refine ⟨calm_constructCopy valid fun i bound => Reference.valid_of_live sound (sources i bound),
    built, ⟨_, le_trans room (le_max_right _ _), rfl⟩, fun i => ?_, fun other elsewhere => ?_⟩
  · refine (live _).trans ?_
    rw [not_outside_element, filled.live]
    dsimp only
    omega
  · refine (live other).trans (or_iff_right ?_)
    exact not_not.mpr (outside_element elsewhere)

theorem Vec.lasts_remove {index : ℕ} {result : Option T × Memory T × Vec}
    (ran : Vec.Base.remove type memory vec index = some result) : vec.Lasts memory result.2 := by
  have bound : index < vec.mSize := by
    by_contra outside
    rw [Vec.Base.remove, if_neg outside] at ran
    cases ran
  rw [Vec.Base.remove, if_pos bound] at ran
  obtain ⟨between, moved, rfl⟩ := Option.map_eq_some_iff.mp ran
  have here := (filled.live index).mpr bound
  have valid := sound.placed _ here
  set taken := ((memory.touch (vec.element index)).retire type (vec.element index)).destroy type
    (vec.element index) with taken_eq
  have calm : Calm memory taken := (Calm.touch valid).trans (Calm.retire.trans (Calm.destroy valid))
  have retired (other : Address) : ((memory.touch (vec.element index)).retire type
      (vec.element index)).Live other ↔ memory.Live other := live_retire
  have held : Sound taken := (sound.touch here).retire.destroy observed ((retired _).mpr here)
  have live (other : Address) : taken.Live other ↔ other ≠ vec.element index ∧ memory.Live other :=
    have place : ((memory.touch (vec.element index)).retire type (vec.element index)).Valid
        (vec.element index) := valid
    (live_destroy observed place).trans (and_congr_right fun _ => retired other)
  obtain ⟨count, last⟩ : ∃ count, vec.mSize = index + count + 1 := ⟨vec.mSize - index - 1, by omega⟩
  have amount : vec.mSize - index - 1 = count := by omega
  have places (i : ℕ) (_ : index ≤ i) (below : i ≤ index + count) : taken.Valid (vec.mData, i) :=
    (calm.valid_iff _).mpr (filled.room i (lt_max_of_lt_left (by omega)))
  have shifted : between =
      constructMoveOverlapping type taken (vec.mData, index) (vec.mData, index + 1) count := by
    rw [amount] at moved
    split_ifs at moved with more
    · exact Vec.move_eq (Nat.succ_ne_self index).symm moved
    · obtain rfl : count = 0 := by omega
      obtain rfl := Option.some.inj moved
      exact (if_pos (Nat.lt_succ_self index)).symm
  obtain ⟨moved, live'⟩ := sound_shiftDown observed held places
    (fun there => ((live _).mp there).1 rfl)
    fun i _ below => (live _).mpr ⟨fun same => by have := element_inj.mp same; omega,
      (filled.live i).mpr (by omega)⟩
  rw [← shifted] at moved live'
  refine ⟨calm.trans (shifted ▸ (read_shiftDown type taken places).1), moved,
    ⟨_, by omega, rfl⟩, fun i => ?_, fun other elsewhere => ?_⟩
  · refine (live' _).trans ?_
    rw [live]
    change vec.element i ≠ vec.element (index + count) ∧ (vec.element i = vec.element index ∨
      vec.element i ≠ vec.element index ∧ memory.Live (vec.element i)) ↔ i < vec.mSize - 1
    rw [filled.live, ne_eq, element_inj, ne_eq, element_inj]
    omega
  · refine (live' other).trans ?_
    rw [live, and_iff_right (show other ≠ (vec.mData, index + count) from element_ne elsewhere _),
      or_iff_right (show other ≠ (vec.mData, index) from element_ne elsewhere index),
      and_iff_right (element_ne elsewhere index)]

theorem Vec.lasts_truncate {newSize : ℕ} {result : Memory T × Vec}
    (ran : Vec.Base.truncate type memory vec newSize = some result) : vec.Lasts memory result := by
  unfold Vec.Base.truncate at ran
  split_ifs at ran with shrinks
  cases ran
  have live (i : ℕ) (bound : i < vec.mSize - newSize) :
      memory.Live ((vec.element newSize).offset i) := (filled.live (newSize + i)).mpr (by omega)
  obtain ⟨ended, kept⟩ := sound_destroy observed sound live
  refine ⟨calm_destroy fun i bound => sound.placed _ (live i bound), ended,
    ⟨_, le_max_of_le_left shrinks, rfl⟩, fun i => ?_, fun other elsewhere => ?_⟩
  · have outside : Outside (vec.element newSize) (vec.mSize - newSize) (vec.element i) ↔
        ¬ (newSize ≤ i ∧ i < newSize + (vec.mSize - newSize)) :=
      not_iff_not.mp (not_outside_element.trans not_not.symm)
    refine (kept _).trans ?_
    rw [outside, filled.live]
    dsimp only
    omega
  · exact (kept other).trans (and_iff_right (outside_element elsewhere))

theorem Vec.lasts_clear : vec.Lasts memory (Vec.Base.clear type memory vec) :=
  Vec.lasts_truncate sound filled observed
    (show Vec.Base.truncate type memory vec 0 = some _ from if_pos (Nat.zero_le _))

omit observed in
/-- Nothing happens to a vector. -/
theorem Vec.lasts_refl : vec.Lasts memory (memory, vec) :=
  ⟨Calm.refl memory, sound, ⟨_, le_max_left _ _, rfl⟩, filled.live, fun _ _ => Iff.rfl⟩

omit observed in
theorem Vec.lasts_extend {value : Reference T} {newSize : ℕ} {result : Memory T × Vec}
    (small : newSize ≤ vec.mSize)
    (ran : Vec.Base.extend type memory vec newSize value = some result) :
    vec.Lasts memory result := by
  unfold Vec.Base.extend at ran
  split_ifs at ran with guards
  obtain rfl : newSize = vec.mSize := le_antisymm small guards.1
  rw [Nat.sub_self] at ran
  obtain rfl := Option.some.inj ran
  exact Vec.lasts_refl sound filled

theorem Vec.lasts_resize {value : Reference T} {newSize : ℕ} {result : Memory T × Vec}
    (small : newSize ≤ vec.mSize)
    (ran : Vec.Base.resize type memory vec newSize value = some result) :
    vec.Lasts memory result := by
  unfold Vec.Base.resize at ran
  split_ifs at ran with same shrinks
  · obtain rfl := Option.some.inj ran
    exact Vec.lasts_refl sound filled
  · exact Vec.lasts_truncate sound filled observed ran
  · omega

/-- A loop that assigns to the elements of a vector. -/
theorem Vec.lasts_replace {src : ℕ → Reference T} {amount : ℕ} (rvalue : Bool)
    (within : amount ≤ vec.mSize)
    (sources : ∀ i < amount, (src i).Live memory ∧ (src i).Apart (vec.element 0) amount) :
    vec.Lasts memory (loop (fun i memory => constructAt type
      (memory.destroy type ((vec.element 0).offset i)) ((vec.element 0).offset i) (src i) rvalue)
      amount memory, vec) := by
  have live (i : ℕ) (bound : i < amount) : memory.Live ((vec.element 0).offset i) :=
    (filled.live (0 + i)).mpr (by omega)
  obtain ⟨replaced, kept⟩ := sound_replace observed rvalue sound live sources
  refine ⟨?_, replaced, ⟨_, le_max_left _ _, rfl⟩, fun i => (kept _).trans (filled.live i),
    fun other _ => kept other⟩
  exact calm_constructs rvalue (fun _ _ place => Calm.destroy place)
    (fun i bound => sound.placed _ (live i bound))
    fun i bound => Reference.valid_of_live sound (sources i bound).1

end Base

section New

variable (type) in
/-- Objects that are constructed in a new block. -/
theorem sound_new {src : ℕ → Reference T} {amount count : ℕ} (rvalue : Bool) (sound : Sound memory)
    (fresh : memory.blocks.length ∉ memory.freed) (within : amount ≤ count)
    (sources : ∀ i < amount, (src i).Live memory) :
    let after := loop (fun i memory' => constructAt type memory'
      (Address.offset (memory.blocks.length, 0) i) (src i) rvalue) amount (extended memory count)
    Calm (extended memory count) after ∧ Sound after ∧
      (∀ i, after.Live (memory.blocks.length, i) ↔ i < amount) ∧
      ∀ other : Address, other.1 ≠ memory.blocks.length → (after.Live other ↔ memory.Live other) := by
  have start (i : ℕ) : Address.offset (memory.blocks.length, 0) i = (memory.blocks.length, i) :=
    congrArg (Prod.mk _) (Nat.zero_add i)
  have sound' : Sound (extended memory count) := sound.allocate count
  have valid (i : ℕ) (bound : i < amount) :
      (extended memory count).Valid (Address.offset (memory.blocks.length, 0) i) := by
    refine ⟨?_, fresh⟩
    rw [start, extended_new]
    exact lt_of_lt_of_le bound within
  have dead (i : ℕ) (_ : i < amount) :
      ¬ (extended memory count).Live (Address.offset (memory.blocks.length, 0) i) := by
    rw [start]
    exact sound.not_live_new i
  obtain ⟨built, live⟩ := sound_constructs type rvalue sound' valid dead sources
  refine ⟨?_, built, fun i => ?_, fun other elsewhere => ?_⟩
  · exact calm_constructs rvalue (fun _ memory _ => Calm.refl memory) valid
      fun i bound => Reference.valid_of_live sound' (sources i bound)
  · refine (live _).trans ((or_iff_left (sound.not_live_new i)).trans ?_)
    rw [not_outside_iff]
    constructor
    · rintro ⟨j, bound, same⟩
      rw [start] at same
      have place : i = j := congrArg Prod.snd same
      exact place ▸ bound
    · exact fun bound => ⟨i, bound, (start i).symm⟩
  · refine (live other).trans (or_iff_right (not_not.mpr fun i _ same => elsewhere ?_))
    exact congrArg Prod.fst same

/-- A vector gets a new block with objects below its size, and none are left in the one it had. -/
structure Vec.Anew (memory : Memory T) (old : ℕ) (result : Memory T × Vec) : Prop where
  data : result.2.mData = memory.blocks.length
  blocks : ∃ count, result.1.blocks = memory.blocks ++ [count] ∧
    max result.2.mSize result.2.mCapacity ≤ count
  freed : ∀ block ∈ result.1.freed, block = old ∨ block ∈ memory.freed
  wild : result.1.wild = memory.wild
  sound : Sound result.1
  live : ∀ i, result.1.Live (result.2.element i) ↔ i < result.2.mSize
  others : ∀ other : Address, other.1 ≠ memory.blocks.length →
    (result.1.Live other ↔ other.1 ≠ old ∧ memory.Live other)

variable (sound : Sound memory)

include sound

/-- A block without objects ends. -/
theorem sound_free (dead : ∀ i, ¬ memory.Live (vec.element i)) :
    Sound (memory.free vec.mData) ∧ ∀ other, (memory.free vec.mData).Live other ↔ memory.Live other := by
  refine ⟨sound.free dead, fun other => ?_⟩
  by_cases here : other.1 = vec.mData
  · have place : other = vec.element other.2 := Prod.ext here rfl
    exact iff_of_false (not_not.mpr (if_pos here)) (place ▸ dead _)
  · exact live_congr (if_neg here)

theorem Vec.sound_free (dead : ∀ i, ¬ memory.Live (vec.element i)) :
    Sound (vec.free memory) ∧ ∀ other, (vec.free memory).Live other ↔ memory.Live other := by
  unfold Vec.free
  split_ifs
  · exact ⟨sound, fun _ => Iff.rfl⟩
  · exact Container.sound_free sound dead

variable (fresh : memory.blocks.length ∉ memory.freed)

include fresh

/-- A constructor of a vector that had no block. -/
theorem Vec.anew_construct {src : ℕ → Reference T} {count : ℕ} (rvalue : Bool) {result : Vec}
    (nowhere : ∀ i, ¬ memory.Live (0, i)) (data : result.mData = memory.blocks.length)
    (within : max result.mSize result.mCapacity ≤ count)
    (sources : ∀ i < result.mSize, (src i).Live memory) :
    Vec.Anew memory 0 (loop (fun i memory' => constructAt type memory'
      (Address.offset (memory.blocks.length, 0) i) (src i) rvalue) result.mSize
      (extended memory count), result) := by
  obtain ⟨calm, built, live, others⟩ := sound_new type rvalue sound fresh
    (le_trans (le_max_left _ _) within) sources
  refine ⟨data, ⟨count, calm.blocks, within⟩, fun block member => .inr ?_, calm.wild, built, fun i => ?_,
    fun other elsewhere => (others other elsewhere).trans (and_iff_right_of_imp ?_).symm⟩
  · rwa [calm.freed] at member
  · rw [Vec.element, data]
    exact live i
  · intro held null
    exact nowhere other.2 (null ▸ held)

variable (filled : vec.Filled memory) (placed : vec.mData < memory.blocks.length)
  (observed : type.trivial = false)

include filled placed observed

/-- The elements of a vector move to a new block. -/
theorem Vec.anew_relocate {count capacity : ℕ} (within : max vec.mSize capacity ≤ count) :
    Vec.Anew memory vec.mData (vec.relocate type (extended memory count) memory.blocks.length,
      { vec with mData := memory.blocks.length, mCapacity := capacity }) := by
  have start (i : ℕ) : (vec.element 0).offset i = vec.element i :=
    congrArg (Prod.mk vec.mData) (Nat.zero_add i)
  obtain ⟨calm, built, live, others⟩ := sound_new type true sound fresh
    (le_trans (le_max_left _ _) within)
    (show ∀ i < vec.mSize, (Reference.element ((vec.element 0).offset i) : Reference T).Live memory
      from fun i bound => by rw [start]; exact (filled.live i).mpr bound)
  set moved := constructMove type (extended memory count) (memory.blocks.length, 0) (vec.element 0)
    vec.mSize with moved_eq
  have sources (i : ℕ) (bound : i < vec.mSize) : moved.Live ((vec.element 0).offset i) := by
    rw [start]
    exact (others (vec.element i) (ne_of_lt placed)).mpr ((filled.live i).mpr bound)
  obtain ⟨ended, kept⟩ := sound_destroy observed built sources
  have calm' : Calm moved (destroy type moved (vec.element 0) vec.mSize) :=
    calm_destroy fun i bound => built.placed _ (sources i bound)
  set last := destroy type moved (vec.element 0) vec.mSize with last_eq
  have dead (i : ℕ) : ¬ last.Live (vec.element i) := by
    intro there
    obtain ⟨outside, there⟩ := (kept _).mp there
    have bound := (filled.live i).mp ((others _ (ne_of_lt placed)).mp there)
    exact outside i bound (start i).symm
  have away {other : Address} (elsewhere : other.1 ≠ vec.mData) : last.Live other ↔ moved.Live other :=
    (kept other).trans (and_iff_right (outside_element elsewhere))
  obtain ⟨freed, live'⟩ := Vec.sound_free ended dead
  refine ⟨rfl, ⟨count, ?_, within⟩, fun block member => ?_,
    (Vec.free_cases last vec).2.2.2.trans (calm'.wild.trans calm.wild), freed, fun i => ?_,
    fun other elsewhere => ?_⟩
  · exact (Vec.free_cases last vec).1.trans (calm'.blocks.trans calm.blocks)
  · refine ((Vec.free_cases last vec).2.1 block member).imp_right fun member => ?_
    rw [calm'.freed] at member
    exact (congrArg (block ∈ ·) calm.freed).mp member
  · exact (live' _).trans ((away (ne_of_gt placed)).trans (live i))
  · refine (live' other).trans ?_
    by_cases here : other.1 = vec.mData
    · have place : other = vec.element other.2 := Prod.ext here rfl
      exact iff_of_false (place ▸ dead _) fun held => held.1 here
    · exact ((away here).trans (others other elsewhere)).trans (and_iff_right here).symm

omit placed in
/-- The elements of a vector end, and it gets a new block with copies of others. -/
theorem Vec.anew_setCopy {grants : ℕ → ℕ → Bool} {data : Util.Span T} {capacity : ℕ}
    {result : Memory T × Vec}
    (fits : max data.size (Vec.chosen data.size capacity) * type.sizeOf < 2 ^ 64)
    (sources : ∀ i < data.size, (data.data i).Live (Vec.Base.clear type memory vec).1)
    (ran : Vec.setCopy type grants memory vec data capacity = some result) :
    Vec.Anew memory vec.mData result := by
  obtain rfl := Vec.setCopy_eq fits ran
  obtain ⟨calm, cleared, -, gone, kept⟩ := Vec.lasts_clear sound filled observed
  change Calm memory (destroy type memory (vec.element 0) vec.mSize) at calm
  change Sound (destroy type memory (vec.element 0) vec.mSize) at cleared
  have same : (destroy type memory (vec.element 0) vec.mSize).blocks.length = memory.blocks.length :=
    congrArg List.length calm.blocks
  have fresh' : (destroy type memory (vec.element 0) vec.mSize).blocks.length ∉
      (destroy type memory (vec.element 0) vec.mSize).freed := by
    rw [same, calm.freed]
    exact fresh
  obtain ⟨calm', built, live, others⟩ := sound_new type false cleared fresh'
    (le_max_left data.size (Vec.chosen data.size capacity)) sources
  refine ⟨same, ⟨_, calm'.blocks.trans ?_, le_refl _⟩, fun block member => .inr ?_,
    calm'.wild.trans calm.wild, built, live, fun other elsewhere => (others other (same ▸ elsewhere)).trans ?_⟩
  · exact congrArg (· ++ _) calm.blocks
  · exact ((congrArg (block ∈ ·) calm'.freed).trans (congrArg (block ∈ ·) calm.freed)).mp member
  · by_cases here : other.1 = vec.mData
    · have place : other = vec.element other.2 := Prod.ext here rfl
      refine iff_of_false (fun held => ?_) fun held => held.1 here
      exact absurd ((gone other.2).mp (place ▸ held)) (Nat.not_lt_zero _)
    · exact (kept other here).trans (and_iff_right here).symm

end New

/-- An argument is a certain element of a vector. -/
def Operand.Is (var : Var) (index : ℕ) : Operand Var T → Prop
  | .value _ => False
  | .element owner i => owner = var ∧ i = index

instance [DecidableEq Var] (var : Var) (index : ℕ) (operand : Operand Var T) :
    Decidable (operand.Is var index) :=
  match operand with
  | .value _ => inferInstanceAs (Decidable False)
  | .element _ _ => inferInstanceAs (Decidable (_ ∧ _))

variable (type) in
/-- An operation neither fills slots that hold no objects nor reads from slots that it has emptied
before. -/
def Operation.Careful (vec : Vec) (var : Var) : Operation Var T → Prop
  | .insert value rvalue index =>
    (Operation.insert value rvalue index).GrowsWell type vec var ∧ ¬ value.Is var index
  | .emplaceAt index value rvalue =>
    (Operation.emplaceAt index value rvalue).GrowsWell type vec var ∧ ¬ value.Is var index
  | .pushFront value rvalue =>
    (Operation.pushFront value rvalue).GrowsWell type vec var ∧ ¬ value.Is var 0
  | .extend newSize _ | .resize newSize _ => newSize ≤ vec.mSize
  | operation => operation.GrowsWell type vec var

instance [DecidableEq Var] (vec : Vec) (var : Var) (operation : Operation Var T) :
    Decidable (operation.Careful type vec var) :=
  match operation with
  | .insert _ _ _ | .emplaceAt _ _ _ | .pushFront _ _ => inferInstanceAs (Decidable (_ ∧ ¬ _))
  | .extend _ _ | .resize _ _ => inferInstanceAs (Decidable (_ ≤ _))
  | .add value rvalue => inferInstanceAs (Decidable ((Operation.add value rvalue).GrowsWell ..))
  | .append data => inferInstanceAs (Decidable ((Operation.append data).GrowsWell ..))
  | .remove index => inferInstanceAs (Decidable ((Operation.remove index).GrowsWell ..))
  | .popBack => inferInstanceAs (Decidable (Operation.popBack.GrowsWell ..))
  | .popFront => inferInstanceAs (Decidable (Operation.popFront.GrowsWell ..))
  | .truncate newSize => inferInstanceAs (Decidable ((Operation.truncate newSize).GrowsWell ..))
  | .clear => inferInstanceAs (Decidable (Operation.clear.GrowsWell ..))
  | .reserve capacity => inferInstanceAs (Decidable ((Operation.reserve capacity).GrowsWell ..))

variable (type) in
/-- The bytes of a `Vec` do not wrap around, and no other vector exceeds its capacity. -/
def Vec.Bounded (vec : Vec) : Prop :=
  (vec.storage = .vec → max vec.mSize vec.mCapacity * type.sizeOf < 2 ^ 64) ∧
    (vec.storage ≠ .vec → vec.mSize ≤ vec.mCapacity)

theorem Vec.bounded_fixed (elsewhere : vec.storage ≠ .vec) (sized : vec.mSize ≤ vec.mCapacity) :
    vec.Bounded type := ⟨fun heap => absurd heap elsewhere, fun _ => sized⟩

theorem Vec.bounded_heap (heap : vec.storage = .vec)
    (fits : max vec.mSize vec.mCapacity * type.sizeOf < 2 ^ 64) : vec.Bounded type :=
  ⟨fun _ => fits, fun elsewhere => absurd heap elsewhere⟩

namespace VecWorld

variable [DecidableEq Var] {world : VecWorld Var T} {var other : Var}

/-- Every vector holds objects below its size, and there are no others. -/
structure Lifetimes (type : ObjectType T) (world : VecWorld Var T) : Prop where
  sound : Sound world.memory
  filled : ∀ var vec, world.objects var = some vec → vec.Filled world.memory
  placed : ∀ var vec, world.objects var = some vec → vec.mData < world.memory.blocks.length
  bounded : ∀ var vec, world.objects var = some vec → vec.Bounded type
  apart : ∀ var other, world.block var = world.block other → world.block var ≠ 0 → var = other
  owned : ∀ address, world.memory.Live address → ∃ var, world.block var = address.1
  null : world.memory.blocks[0]? = some 0
  beyond : ∀ block ∈ world.memory.freed, block < world.memory.blocks.length
  tame : world.memory.wild = false

namespace Lifetimes

omit [DecidableEq Var] in
theorem fresh (lifetimes : world.Lifetimes type) :
    world.memory.blocks.length ∉ world.memory.freed :=
  fun member => lt_irrefl _ (lifetimes.beyond _ member)

omit [DecidableEq Var] in
/-- There is nothing in the block of the null pointer. -/
theorem nowhere (lifetimes : world.Lifetimes type) (i : ℕ) : ¬ world.memory.Valid (0, i) := by
  rintro ⟨inside, -⟩
  rw [lifetimes.null] at inside
  exact absurd inside (Nat.not_lt_zero i)

omit [DecidableEq Var] in
theorem not_live_null (lifetimes : world.Lifetimes type) (i : ℕ) : ¬ world.memory.Live (0, i) :=
  fun live => lifetimes.nowhere i (lifetimes.sound.placed _ live)

omit [DecidableEq Var] in
theorem block_lt (lifetimes : world.Lifetimes type) (var : Var) :
    world.block var < world.memory.blocks.length := by
  cases there : world.objects var with
  | none =>
    rw [Buffers.block_of_none there]
    exact (List.getElem?_eq_some_iff.mp lifetimes.null).1
  | some vec =>
    rw [block_of_some there]
    exact lifetimes.placed var vec there

omit [DecidableEq Var] in
/-- What happens in the block of one vector leaves the others filled. -/
theorem filled_other (lifetimes : world.Lifetimes type) (different : other ≠ var)
    (there : world.objects other = some vec) {memory : Memory T}
    (blocks : ∀ block < world.memory.blocks.length, memory.blocks[block]? = world.memory.blocks[block]?)
    (freed : ∀ block ∈ memory.freed, block = world.block var ∨ block ∈ world.memory.freed)
    (others : ∀ address : Address, address.1 < world.memory.blocks.length →
      address.1 ≠ world.block var → (memory.Live address ↔ world.memory.Live address))
    (null : ∀ i, ¬ memory.Live (0, i)) : vec.Filled memory := by
  have filled := lifetimes.filled other vec there
  have placed := lifetimes.placed other vec there
  have own := block_of_some there
  by_cases nothing : vec.mData = 0
  · have empty (i : ℕ) (bound : i < max vec.mSize vec.mCapacity) : False :=
      lifetimes.nowhere i (nothing ▸ filled.room i bound)
    refine ⟨fun i => ?_, fun i bound => (empty i bound).elim⟩
    rw [Vec.element, nothing]
    exact iff_of_false (null i) fun bound => empty i (lt_max_of_lt_left bound)
  · have elsewhere : vec.mData ≠ world.block var := fun same =>
      different (lifetimes.apart other var (own.trans same) (own ▸ nothing))
    refine ⟨fun i => (others (vec.element i) placed elsewhere).trans (filled.live i), fun i bound => ?_⟩
    obtain ⟨inside, kept⟩ := filled.room i bound
    refine ⟨?_, fun member => (freed _ member).elim elsewhere kept⟩
    change i < memory.blocks[vec.mData]?.getD 0
    rw [blocks _ placed]
    exact inside

/-- An operation within the block of a vector. -/
theorem put_lasts (lifetimes : world.Lifetimes type) (there : world.objects var = some vec)
    {result : Memory T × Vec} (lasts : vec.Lasts world.memory result) :
    (world.put var result).Lifetimes type := by
  obtain ⟨calm, sound, ⟨size, within, same⟩, live, others⟩ := lasts
  have blocks (x : Var) : (world.put var result).block x = world.block x := by
    by_cases here : x = var
    · subst here
      rw [block_put_self, same, block_of_some there]
    · exact block_put_of_ne world result here
  have own := block_of_some there
  have filled := lifetimes.filled var vec there
  refine ⟨sound, ?_, ?_, ?_, ?_, ?_, ?_, ?_, calm.wild.trans lifetimes.tame⟩
  · refine forall_put result ?_ fun other vec' different held => ?_
    · rw [same] at live ⊢
      refine ⟨live, fun i bound => (calm.valid_iff _).mpr (filled.room i ?_)⟩
      dsimp only at bound
      omega
    · refine lifetimes.filled_other different held (fun block _ => congrArg (·[block]?) calm.blocks)
        (fun block member => .inr (calm.freed ▸ member))
        (fun address _ elsewhere => others address (own ▸ elsewhere)) fun i there => ?_
      exact lifetimes.nowhere i ((calm.valid_iff _).mp (sound.placed _ there))
  · refine forall_put result ?_ fun other vec' _ held => ?_
    · rw [same]
      exact (lifetimes.placed var vec there).trans_eq (congrArg _ calm.blocks).symm
    · exact (lifetimes.placed other vec' held).trans_eq (congrArg _ calm.blocks).symm
  · refine forall_put result ?_ fun other vec' _ held => lifetimes.bounded other vec' held
    rw [same]
    refine (lifetimes.bounded var vec there).imp (fun fits heap => ?_) fun sized elsewhere => ?_
    · exact lt_of_le_of_lt (Nat.mul_le_mul_right _ (max_le within (le_max_right _ _))) (fits heap)
    · have := sized elsewhere
      exact within.trans (max_le this (le_refl _))
  · simp only [blocks]
    exact lifetimes.apart
  · simp only [blocks]
    intro address live'
    by_cases here : address.1 = vec.mData
    · exact ⟨var, own.trans here.symm⟩
    · exact lifetimes.owned address ((others address here).mp live')
  · exact (congrArg (·[0]?) calm.blocks).trans lifetimes.null
  · intro block member
    exact (lifetimes.beyond block ((congrArg (block ∈ ·) calm.freed).mp member)).trans_eq
      (congrArg _ calm.blocks).symm

/-- A vector gets a new block. -/
theorem put_anew (lifetimes : world.Lifetimes type) {result : Memory T × Vec}
    (anew : Vec.Anew world.memory (world.block var) result)
    (bounded : result.2.Bounded type) : (world.put var result).Lifetimes type := by
  obtain ⟨data, ⟨count, blocks, room⟩, freed, wild, sound, live, others⟩ := anew
  have length : result.1.blocks.length = world.memory.blocks.length + 1 := by
    rw [blocks, List.length_append, List.length_singleton]
  have older (block : ℕ) (bound : block < world.memory.blocks.length) :
      result.1.blocks[block]? = world.memory.blocks[block]? := by
    rw [blocks, List.getElem?_append_left bound]
  have newest : result.1.blocks[world.memory.blocks.length]? = some count := by
    rw [blocks, List.getElem?_append_right (le_refl _), Nat.sub_self]
    rfl
  have bound := lifetimes.block_lt var
  have positive : 0 < world.memory.blocks.length := (List.getElem?_eq_some_iff.mp lifetimes.null).1
  have earlier (block : ℕ) (member : block ∈ result.1.freed) : block < world.memory.blocks.length :=
    (freed block member).elim (fun same => same ▸ bound) (lifetimes.beyond block)
  have place (x : Var) : (world.put var result).block x =
      if x = var then world.memory.blocks.length else world.block x := by
    split_ifs with here
    · subst here
      rw [block_put_self, data]
    · exact block_put_of_ne world result here
  refine ⟨sound, ?_, ?_, ?_, ?_, ?_, (older 0 positive).trans lifetimes.null, ?_,
    wild.trans lifetimes.tame⟩
  · refine forall_put result ⟨live, fun i below => ⟨?_, fun member => ?_⟩⟩
      fun other vec' different held => ?_
    · change i < result.1.blocks[result.2.mData]?.getD 0
      rw [data, newest]
      exact lt_of_lt_of_le below room
    · have := earlier _ member
      exact absurd (data ▸ this : world.memory.blocks.length < _) (lt_irrefl _)
    · refine lifetimes.filled_other different held older freed (fun address below elsewhere =>
        (others address (ne_of_lt below)).trans (and_iff_right elsewhere)) fun i there => ?_
      exact lifetimes.not_live_null i ((others (0, i) (ne_of_lt positive)).mp there).2
  · refine forall_put result ?_ fun other vec' _ held => ?_
    · change result.2.mData < result.1.blocks.length
      omega
    · have := lifetimes.placed other vec' held
      change vec'.mData < result.1.blocks.length
      omega
  · exact forall_put result bounded fun other vec' _ held => lifetimes.bounded other vec' held
  · intro x y
    rw [place, place]
    have := lifetimes.block_lt x
    have := lifetimes.block_lt y
    split_ifs with one two two
    · exact fun _ _ => one.trans two.symm
    · omega
    · omega
    · exact lifetimes.apart x y
  · intro address live'
    by_cases here : address.1 = world.memory.blocks.length
    · exact ⟨var, by rw [place, if_pos rfl, here]⟩
    · obtain ⟨elsewhere, held⟩ := (others address here).mp live'
      obtain ⟨owner, own⟩ := lifetimes.owned address held
      refine ⟨owner, ?_⟩
      rw [place, if_neg, own]
      rintro rfl
      exact elsewhere own.symm
  · intro block member
    exact lt_of_lt_of_le (earlier block member) (by change _ ≤ result.1.blocks.length; omega)

/-- The end of a vector. -/
theorem remove (lifetimes : world.Lifetimes type) {memory : Memory T}
    (blocks : memory.blocks = world.memory.blocks)
    (freed : ∀ block ∈ memory.freed, block = world.block var ∨ block ∈ world.memory.freed)
    (wild : memory.wild = false) (sound : Sound memory)
    (others : ∀ other : Address, memory.Live other ↔
      other.1 ≠ world.block var ∧ world.memory.Live other) :
    Lifetimes type ⟨memory, Function.update world.objects var none⟩ := by
  set after : VecWorld Var T := ⟨memory, Function.update world.objects var none⟩ with result
  have elsewhere {x : Var} (different : x ≠ var) : after.objects x = world.objects x :=
    Function.update_of_ne different ..
  have gone : after.objects var = none := Function.update_self ..
  have place (x : Var) : after.block x = if x = var then 0 else world.block x := by
    split_ifs with here
    · subst here
      exact Buffers.block_of_none gone
    · rw [VecWorld.block, elsewhere here, VecWorld.block]
  have held {x : Var} {vec : Vec} (there : after.objects x = some vec) :
      x ≠ var ∧ world.objects x = some vec := by
    by_cases same : x = var
    · subst same
      rw [gone] at there
      cases there
    · exact ⟨same, (elsewhere same).symm.trans there⟩
  refine ⟨sound, fun x vec there => ?_, fun x vec there => ?_, fun x vec there => ?_,
    fun x y => ?_, fun address live => ?_, ?_, fun block member => ?_, wild⟩
  · refine lifetimes.filled_other (held there).1 (held there).2 (fun block _ => by rw [blocks]) freed
      (fun address _ away => (others address).trans (and_iff_right away)) fun i there => ?_
    exact lifetimes.not_live_null i ((others (0, i)).mp there).2
  · exact (lifetimes.placed x vec (held there).2).trans_eq (congrArg _ blocks).symm
  · exact lifetimes.bounded x vec (held there).2
  · rw [place, place]
    split_ifs with one two two
    · exact fun _ real => absurd rfl real
    · exact fun _ real => absurd rfl real
    · exact fun same real => absurd same real
    · exact lifetimes.apart x y
  · obtain ⟨away, live'⟩ := (others address).mp live
    obtain ⟨owner, own⟩ := lifetimes.owned address live'
    refine ⟨owner, ?_⟩
    rw [place, if_neg, own]
    rintro rfl
    exact away own.symm
  · exact (congrArg (·[0]?) blocks).trans lifetimes.null
  · refine lt_of_lt_of_eq ?_ (congrArg List.length blocks).symm
    exact (freed block member).elim (fun same => same ▸ lifetimes.block_lt var)
      (lifetimes.beyond block)

omit [DecidableEq Var] in
/-- An element that there is belongs to a vector that there is. -/
theorem exists_of_allowed {owner : Var} {i : ℕ} (allowed : i < world.size owner) :
    ∃ vec, world.objects owner = some vec ∧ i < vec.mSize := by
  rw [size, VecWorld.vec] at allowed
  cases there : world.objects owner with
  | none =>
    rw [there] at allowed
    exact absurd allowed (Nat.not_lt_zero i)
  | some vec =>
    rw [there] at allowed
    exact ⟨vec, rfl, allowed⟩

omit [DecidableEq Var] in
/-- What an argument refers to is an object. -/
theorem live_resolve (lifetimes : world.Lifetimes type) {operand : Operand Var T}
    (allowed : operand.Allowed world.size) : (operand.resolve world.vec).Live world.memory := by
  cases operand with
  | value given => trivial
  | element owner index =>
    obtain ⟨vec, there, bound⟩ := exists_of_allowed allowed
    rw [Operand.resolve, vec_of_some there]
    exact ((lifetimes.filled owner vec there).live index).mpr bound

omit [DecidableEq Var] in
theorem live_span (lifetimes : world.Lifetimes type) {data : SpanOperand Var T}
    (allowed : data.Allowed world.size) {i : ℕ} (bound : i < data.size) :
    ((data.resolve world.vec).data i).Live world.memory := by
  obtain ⟨operand, got, allowed', -⟩ := SpanOperand.get_of_allowed allowed bound
  rw [SpanOperand.data_resolve got]
  exact lifetimes.live_resolve allowed'

/-- A vector that grows. -/
theorem grow (lifetimes : world.Lifetimes type) (observed : type.trivial = false)
    (there : world.objects var = some vec) {grants : ℕ → ℕ → Bool} {capacity : ℕ}
    {result : Memory T × Vec} (fits : vec.Grows capacity → vec.Fits type capacity)
    (ran : vec.grow type world.memory grants capacity = some result) :
    (world.put var result).Lifetimes type ∧ (result = (world.memory, vec) ∨ vec.Grows capacity) := by
  obtain ⟨after, vec'⟩ := result
  have filled := lifetimes.filled var vec there
  rcases Vec.grow_cases fits ran with ⟨-, rfl, rfl⟩ | ⟨grows, rfl, rfl⟩
  · exact ⟨lifetimes.put_lasts there (Vec.lasts_refl lifetimes.sound filled), .inl rfl⟩
  · refine ⟨lifetimes.put_anew ?_ (Vec.bounded_heap grows.1 (fits grows)), .inr grows⟩
    rw [block_of_some there]
    exact Vec.anew_relocate lifetimes.sound lifetimes.fresh filled (lifetimes.placed var vec there)
      observed (le_refl _)

omit [DecidableEq Var] in
theorem block_ne_zero (lifetimes : world.Lifetimes type) (there : world.objects var = some vec)
    {i : ℕ} (bound : i < vec.mSize) : vec.mData ≠ 0 := by
  intro null
  exact lifetimes.nowhere i (null ▸ (lifetimes.filled var vec there).room i (lt_max_of_lt_left bound))

omit [DecidableEq Var] in
/-- Elements of different vectors are different. -/
theorem data_ne (lifetimes : world.Lifetimes type) (there : world.objects var = some vec)
    (there' : world.objects other = some vec') {i : ℕ} (bound : i < vec'.mSize)
    (different : var ≠ other) : vec'.mData ≠ vec.mData := by
  intro same
  have := lifetimes.apart var other
  rw [block_of_some there, block_of_some there'] at this
  exact different (this same.symm (same ▸ lifetimes.block_ne_zero there' bound))

omit [DecidableEq Var] in
/-- Elements of other vectors are in other blocks. -/
theorem resolve_away (lifetimes : world.Lifetimes type) (there : world.objects var = some vec)
    {operand : Operand Var T} (allowed : operand.Allowed world.size) (away : ¬ operand.RefersTo var)
    {address : Address} (same : operand.resolve world.vec = .element address) :
    address.1 ≠ vec.mData := by
  cases operand with
  | value given => cases same
  | element owner i =>
    obtain ⟨vec', there', bound⟩ := exists_of_allowed allowed
    obtain rfl : (world.vec owner).element i = address := Reference.element.inj same
    rw [vec_of_some there']
    exact lifetimes.data_ne there there' bound fun here => away here.symm

omit [DecidableEq Var] in
theorem resolve_ne (lifetimes : world.Lifetimes type) (there : world.objects var = some vec)
    {operand : Operand Var T} {index : ℕ} (allowed : operand.Allowed world.size)
    (apart : ¬ operand.Is var index) :
    operand.resolve world.vec ≠ .element (vec.element index) := by
  cases operand with
  | value given => exact fun same => by cases same
  | element owner i =>
    intro same
    have address : (world.vec owner).element i = vec.element index := Reference.element.inj same
    have place : i = index := congrArg Prod.snd address
    obtain ⟨vec', there', bound⟩ := exists_of_allowed allowed
    rw [vec_of_some there'] at address
    exact lifetimes.data_ne there there' bound (fun own => apart ⟨own.symm, place⟩)
      (congrArg Prod.fst address)

/-- An operation on a vector. -/
theorem operate (lifetimes : world.Lifetimes type) (observed : type.trivial = false)
    (there : world.objects var = some vec) {grants : ℕ → ℕ → Bool} {operation : Operation Var T}
    {result : Memory T × Vec} (allowed : operation.Allowed world.size)
    (careful : operation.Careful type vec var)
    (ran : operation.run type grants world.vec world.memory vec = some result) :
    (world.put var result).Lifetimes type := by
  -- first the vector grows, then the operation stays within its block
  have growing (capacity : ℕ) (next : Memory T → Vec → Option (Memory T × Vec))
      (fits : vec.Grows capacity → vec.Fits type capacity)
      (ran : (vec.grow type world.memory grants capacity).bind (fun state =>
        next state.1 state.2) = some result)
      (lasts : ∀ state : Memory T × Vec, (state = (world.memory, vec) ∨ vec.Grows capacity) →
        state.2.mSize = vec.mSize → (world.put var state).Lifetimes type →
          next state.1 state.2 = some result → state.2.Lasts state.1 result) : (world.put var result).Lifetimes type := by
    obtain ⟨state, grown, ran⟩ := Option.bind_eq_some_iff.mp ran
    obtain ⟨lifetimes', same⟩ := lifetimes.grow observed there fits grown
    have := lifetimes'.put_lasts (put_self world var state) (lasts state same
      (Vec.size_grow grown) lifetimes' ran)
    rwa [Buffers.put_put] at this
  have filled' (state : Memory T × Vec) (lifetimes' : (world.put var state).Lifetimes type) :
      state.2.Filled state.1 := lifetimes'.filled var _ (put_self world var state)
  have source {operand : Operand Var T} {capacity : ℕ} (allowed : operand.Allowed world.size)
      (other : vec.Grows capacity → ¬ operand.RefersTo var) (state : Memory T × Vec)
      (same : state = (world.memory, vec) ∨ vec.Grows capacity)
      (lifetimes' : (world.put var state).Lifetimes type) :
      (operand.resolve world.vec).Live state.1 ∧ ∀ index, ¬ operand.Is var index →
        operand.resolve world.vec ≠ .element (state.2.element index) := by
    obtain ⟨equal, allowed'⟩ := Buffers.resolve_grown there same other allowed
    rw [equal]
    exact ⟨lifetimes'.live_resolve allowed', fun index apart =>
      lifetimes'.resolve_ne (put_self world var state) allowed' apart⟩
  have inserting {operand : Operand Var T} {rvalue : Bool} {index : ℕ}
      (allowed : operand.Allowed world.size)
      (well : vec.Grows (vec.mSize + 1) → vec.Fits type (vec.mSize + 1) ∧ ¬ operand.RefersTo var)
      (apart : ¬ operand.Is var index)
      (ran : vec.insert type world.memory grants (operand.resolve world.vec) rvalue index =
        some result) : (world.put var result).Lifetimes type := by
    refine growing (vec.mSize + 1) (fun memory vec => Vec.Base.insert type memory vec
      (operand.resolve world.vec) rvalue index) (fun grows => (well grows).1) ran ?_
    intro state same _ lifetimes' ran
    obtain ⟨live, different⟩ := source allowed (fun grows => (well grows).2) state same lifetimes'
    exact Vec.lasts_insert lifetimes'.sound (filled' state lifetimes') observed live
      (different index apart) ran
  have filled := lifetimes.filled var vec there
  have sound := lifetimes.sound
  have shrinking {newSize : ℕ} (small : newSize ≤ vec.mSize) (grows : vec.Grows newSize) :
      vec.Fits type newSize := by
    refine lt_of_le_of_lt (Nat.mul_le_mul_right _ ?_) ((lifetimes.bounded var vec there).1 grows.1)
    omega
  cases operation with
  | add operand rvalue =>
    refine growing (vec.mSize + 1) (fun memory vec => Vec.Base.add type memory vec
      (operand.resolve world.vec) rvalue) (fun grows => (careful grows).1) ran ?_
    intro state same _ lifetimes' ran
    exact Vec.lasts_add lifetimes'.sound (filled' state lifetimes')
      (source allowed (fun grows => (careful grows).2) state same lifetimes').1 ran
  | insert operand rvalue index => exact inserting allowed careful.1 careful.2 ran
  | emplaceAt index operand rvalue => exact inserting allowed careful.1 careful.2 ran
  | pushFront operand rvalue => exact inserting allowed careful.1 careful.2 ran
  | append data =>
    refine growing (vec.mSize + data.size) (fun memory vec => Vec.Base.append type memory vec
      (data.resolve world.vec)) (fun grows => (careful grows).1) ran ?_
    intro state same _ lifetimes' ran
    refine Vec.lasts_append lifetimes'.sound (filled' state lifetimes') (fun i bound => ?_) ran
    obtain ⟨operand, got, equal, allowed'⟩ := Buffers.resolve_span_grown there same
      (fun grows => (careful grows).2) allowed bound
    rw [SpanOperand.data_resolve got, equal]
    exact lifetimes'.live_resolve allowed'
  | remove index =>
    obtain ⟨removed, taken, rfl⟩ := Option.map_eq_some_iff.mp ran
    exact lifetimes.put_lasts there (Vec.lasts_remove sound filled observed taken)
  | popBack =>
    obtain ⟨removed, taken, rfl⟩ := Option.map_eq_some_iff.mp ran
    unfold Vec.Base.popBack at taken
    split_ifs at taken
    exact lifetimes.put_lasts there (Vec.lasts_remove sound filled observed taken)
  | popFront =>
    obtain ⟨removed, taken, rfl⟩ := Option.map_eq_some_iff.mp ran
    unfold Vec.Base.popFront at taken
    split_ifs at taken
    exact lifetimes.put_lasts there (Vec.lasts_remove sound filled observed taken)
  | extend newSize operand =>
    refine growing newSize (fun memory vec => Vec.Base.extend type memory vec newSize
      (operand.resolve world.vec)) (shrinking careful) ran ?_
    intro state _ size lifetimes' ran
    exact Vec.lasts_extend lifetimes'.sound (filled' state lifetimes') (size ▸ careful) ran
  | resize newSize operand =>
    refine growing newSize (fun memory vec => Vec.Base.resize type memory vec newSize
      (operand.resolve world.vec)) (shrinking careful) ran ?_
    intro state _ size lifetimes' ran
    exact Vec.lasts_resize lifetimes'.sound (filled' state lifetimes') observed (size ▸ careful) ran
  | truncate newSize => exact lifetimes.put_lasts there (Vec.lasts_truncate sound filled observed ran)
  | clear =>
    cases ran
    exact lifetimes.put_lasts there (Vec.lasts_clear sound filled observed)
  | reserve capacity => exact (lifetimes.grow observed there (fun grows => (careful grows).1) ran).1

/-- The constructor of a vector from objects. -/
theorem put_constructed (lifetimes : world.Lifetimes type) (absent : world.objects var = none)
    (src : ℕ → Reference T) {count : ℕ} (rvalue : Bool) (vec : Vec)
    (data : vec.mData = world.memory.blocks.length) (within : max vec.mSize vec.mCapacity ≤ count)
    (bounded : vec.Bounded type) (sources : ∀ i < vec.mSize, (src i).Live world.memory) :
    (world.put var (loop (fun i memory => constructAt type memory
      (Address.offset (world.memory.blocks.length, 0) i) (src i) rvalue) vec.mSize
      (extended world.memory count), vec)).Lifetimes type := by
  refine lifetimes.put_anew ?_ bounded
  rw [Buffers.block_of_none absent]
  exact Vec.anew_construct lifetimes.sound lifetimes.fresh rvalue lifetimes.not_live_null data within
    sources

theorem constructFixed (lifetimes : world.Lifetimes type) (absent : world.objects var = none)
    (Capacity : ℕ) : (world.put var (world.newFixed Capacity)).Lifetimes type :=
  lifetimes.put_constructed absent (fun _ => .element (0, 0)) false (world.newFixed Capacity).2 rfl
    (max_le (Nat.zero_le _) (le_refl _))
    (Vec.bounded_fixed (show Storage.fixedVec ≠ .vec by decide) (Nat.zero_le _))
    fun i bound => absurd bound (Nat.not_lt_zero i)

/-- `setCopy` of a `Vec` from objects of other vectors. -/
theorem setCopy (lifetimes : world.Lifetimes type) (observed : type.trivial = false)
    (filled : vec.Filled world.memory) (own : world.block var = vec.mData) (heap : vec.storage = .vec)
    {grants : ℕ → ℕ → Bool} {data : Util.Span T} {capacity : ℕ} {result : Memory T × Vec}
    (fits : max data.size (Vec.chosen data.size capacity) * type.sizeOf < 2 ^ 64)
    (sources : ∀ i < data.size, (data.data i).Live world.memory ∧
      ∀ address, data.data i = .element address → address.1 ≠ vec.mData)
    (ran : Vec.setCopy type grants world.memory vec data capacity = some result) :
    (world.put var result).Lifetimes type := by
  have cleared := Vec.lasts_clear lifetimes.sound filled observed
  refine lifetimes.put_anew (own ▸ Vec.anew_setCopy lifetimes.sound lifetimes.fresh filled observed
    fits (fun i bound => ?_) ran) ?_
  · obtain ⟨live, apart⟩ := sources i bound
    exact Reference.live_of_forall live fun address given there =>
      (cleared.others address (apart address given)).mpr there
  · obtain rfl := Vec.setCopy_eq fits ran
    exact Vec.bounded_heap heap fits

omit [DecidableEq Var] in
/-- A vector that holds nothing. -/
theorem filled_null (lifetimes : world.Lifetimes type) (storage : Storage) :
    ({ storage := storage } : Vec).Filled world.memory :=
  ⟨fun i => iff_of_false (lifetimes.not_live_null i) (Nat.not_lt_zero i),
    fun i bound => absurd bound (Nat.not_lt_zero i)⟩

/-- A vector without objects loses its block. -/
theorem put_null (lifetimes : world.Lifetimes type)
    (nothing : ∀ address, world.memory.Live address → address.1 ≠ world.block var) :
    (world.put var (world.memory, { storage := .vec })).Lifetimes type := by
  have positive : 0 < world.memory.blocks.length := (List.getElem?_eq_some_iff.mp lifetimes.null).1
  have place (x : Var) : (world.put var (world.memory, { storage := .vec })).block x =
      if x = var then 0 else world.block x := by
    split_ifs with here
    · subst here
      exact block_put_self ..
    · exact block_put_of_ne world _ here
  refine ⟨lifetimes.sound,
    forall_put _ (lifetimes.filled_null .vec) fun other vec _ held => lifetimes.filled other vec held,
    forall_put _ positive fun other vec _ held => lifetimes.placed other vec held,
    forall_put _ (Vec.bounded_heap rfl (by simp)) fun other vec _ held => lifetimes.bounded other vec held,
    fun x y => ?_, fun address live => ?_, lifetimes.null, lifetimes.beyond, lifetimes.tame⟩
  · rw [place, place]
    split_ifs with one two two
    · exact fun _ real => absurd rfl real
    · exact fun _ real => absurd rfl real
    · exact fun same real => absurd same real
    · exact lifetimes.apart x y
  · obtain ⟨owner, own⟩ := lifetimes.owned address live
    refine ⟨owner, ?_⟩
    rw [place, if_neg, own]
    rintro rfl
    exact nothing address live own.symm

omit [DecidableEq Var] in
theorem nothing_of_empty (lifetimes : world.Lifetimes type) (there : world.objects var = some vec)
    (empty : vec.mSize = 0) (address : Address) (live : world.memory.Live address) :
    address.1 ≠ world.block var := by
  intro here
  rw [block_of_some there] at here
  have place : address = vec.element address.2 := Prod.ext here rfl
  have bound := ((lifetimes.filled var vec there).live _).mp (place ▸ live)
  omega

/-- `setMove` to a `Vec` without objects. -/
theorem setMove (lifetimes : world.Lifetimes type) (there : world.objects var = some vec)
    (source : world.objects other = some vec') (empty : vec.mSize = 0) (heap : vec.storage = .vec)
    (heap' : vec'.storage = .vec) : (world.setMove var other).Lifetimes type := by
  have nothing := lifetimes.nothing_of_empty there empty
  obtain ⟨storage, mData, mSize, mCapacity⟩ := vec
  obtain ⟨storage', mData', mSize', mCapacity'⟩ := vec'
  obtain rfl : storage = .vec := heap
  obtain rfl : storage' = .vec := heap'
  unfold VecWorld.setMove
  rw [vec_of_some there, vec_of_some source]
  dsimp only
  by_cases same : var = other
  · subst same
    rw [Buffers.vec_put_self]
    change VecWorld.Lifetimes type ((world.put var _).put var (world.memory, _))
    rw [Buffers.put_put]
    exact lifetimes.put_null nothing
  · rw [Buffers.vec_put_of_ne _ _ (Ne.symm same), vec_of_some source]
    change VecWorld.Lifetimes type ((world.put var (world.memory, ⟨.vec, mData', mSize',
      mCapacity'⟩)).put other (world.memory, ⟨.vec, 0, 0, 0⟩))
    have positive : 0 < world.memory.blocks.length :=
      (List.getElem?_eq_some_iff.mp lifetimes.null).1
    have each {P : Vec → Prop} (new : P ⟨.vec, mData', mSize', mCapacity'⟩) (null : P ⟨.vec, 0, 0, 0⟩)
        (old : ∀ x vec, world.objects x = some vec → P vec) :
        ∀ x vec, ((world.put var (world.memory, ⟨.vec, mData', mSize', mCapacity'⟩)).put other
          (world.memory, ⟨.vec, 0, 0, 0⟩)).objects x = some vec → P vec :=
      forall_put _ null fun x vec _ held => forall_put _ new (fun x vec _ held => old x vec held) x vec held
    have place (x : Var) : ((world.put var (world.memory, ⟨.vec, mData', mSize', mCapacity'⟩)).put
        other (world.memory, ⟨.vec, 0, 0, 0⟩)).block x =
          if x = other then 0 else if x = var then world.block other else world.block x := by
      split_ifs with here here'
      · subst here
        exact block_put_self ..
      · subst here'
        rw [block_put_of_ne _ _ here, block_put_self, block_of_some source]
      · rw [block_put_of_ne _ _ here, block_put_of_ne _ _ here']
    refine ⟨lifetimes.sound,
      each (lifetimes.filled other _ source) (lifetimes.filled_null .vec) lifetimes.filled,
      each (lifetimes.placed other _ source) positive lifetimes.placed,
      each (lifetimes.bounded other _ source) (Vec.bounded_heap rfl (by simp)) lifetimes.bounded,
      fun x y => ?_, fun address live => ?_, lifetimes.null, lifetimes.beyond, lifetimes.tame⟩
    · rw [place, place]
      intro equal real
      by_cases x_other : x = other
      · rw [if_pos x_other] at real
        exact absurd rfl real
      · rw [if_neg x_other] at equal real
        by_cases y_other : y = other
        · rw [if_pos y_other] at equal
          exact absurd equal real
        · rw [if_neg y_other] at equal
          split_ifs at equal real with x_var y_var y_var
          · exact x_var.trans y_var.symm
          · exact absurd (lifetimes.apart other y equal real).symm y_other
          · exact absurd (lifetimes.apart x other equal real) x_other
          · exact lifetimes.apart x y equal real
    · obtain ⟨owner, own⟩ := lifetimes.owned address live
      have away : owner ≠ var := fun here => nothing address live (here ▸ own).symm
      by_cases moved : owner = other
      · subst moved
        exact ⟨var, by rw [place, if_neg same, if_pos rfl, own]⟩
      · exact ⟨owner, by rw [place, if_neg moved, if_neg away, own]⟩

/-- The destructor. -/
theorem release (lifetimes : world.Lifetimes type) (observed : type.trivial = false)
    (there : world.objects var = some vec) : (world.release type var).Lifetimes type := by
  obtain ⟨calm, cleared, -, gone, kept⟩ :=
    Vec.lasts_clear lifetimes.sound (lifetimes.filled var vec there) observed
  set emptied := (Vec.Base.clear type world.memory vec).1 with emptied_eq
  have dead (i : ℕ) : ¬ emptied.Live (vec.element i) := fun live =>
    absurd ((gone i).mp live) (Nat.not_lt_zero i)
  have ended : (world.release type var).memory = emptied ∨
      (world.release type var).memory = emptied.free vec.mData := by
    unfold VecWorld.release
    rw [vec_of_some there]
    dsimp only [Vec.Base.clear]
    cases vec.storage with
    | vec =>
      unfold Vec.free
      split_ifs
      · exact .inl rfl
      · exact .inr rfl
    | fixedVec => exact .inr rfl
    | vecSpan => exact .inr rfl
  have others (other : Address) :
      emptied.Live other ↔ other.1 ≠ world.block var ∧ world.memory.Live other := by
    rw [block_of_some there]
    by_cases here : other.1 = vec.mData
    · have place : other = vec.element other.2 := Prod.ext here rfl
      exact iff_of_false (place ▸ dead _) fun held => held.1 here
    · exact (kept other here).trans (and_iff_right here).symm
  have shape : world.release type var =
      ⟨(world.release type var).memory, Function.update world.objects var none⟩ := rfl
  rw [shape]
  rcases ended with same | same <;> rw [same]
  · exact lifetimes.remove calm.blocks (fun block member => .inr (calm.freed ▸ member))
      (calm.wild.trans lifetimes.tame) cleared others
  · obtain ⟨freed, live⟩ := sound_free cleared dead
    refine lifetimes.remove calm.blocks (fun block member => ?_) (calm.wild.trans lifetimes.tame) freed
      fun other => (live other).trans (others other)
    refine (List.mem_cons.mp member).imp (fun here => ?_) fun member => calm.freed ▸ member
    rw [here, block_of_some there]

omit [DecidableEq Var] in
theorem live_element (lifetimes : world.Lifetimes type) (there : world.objects var = some vec)
    {i : ℕ} (bound : i < vec.mSize) :
    (Reference.element (vec.element i) : Reference T).Live world.memory :=
  ((lifetimes.filled var vec there).live i).mpr bound

/-- A `FixedVec` that is constructed from objects. -/
theorem put_fixed (lifetimes : world.Lifetimes type) (absent : world.objects var = none)
    (src : ℕ → Reference T) {amount Capacity : ℕ} (rvalue : Bool) (within : amount ≤ Capacity)
    (sources : ∀ i < amount, (src i).Live world.memory) :
    (world.put var (loop (fun i memory => constructAt type memory
      (Address.offset (world.memory.blocks.length, 0) i) (src i) rvalue) amount
      (world.newFixed Capacity).1, { (world.newFixed Capacity).2 with mSize := amount })).Lifetimes
      type :=
  lifetimes.put_constructed absent src rvalue { (world.newFixed Capacity).2 with mSize := amount } rfl
    (max_le within (le_refl _)) (Vec.bounded_fixed (show Storage.fixedVec ≠ .vec by decide) within)
    sources

/-- An assignment to the elements of a vector from those of another one. -/
theorem put_replace (lifetimes : world.Lifetimes type) (observed : type.trivial = false)
    (there : world.objects var = some vec) (there' : world.objects other = some vec')
    (apart : var = other → vec.mSize = 0) {amount : ℕ} (rvalue : Bool) (within : amount ≤ vec.mSize)
    (within' : amount ≤ vec'.mSize) :
    (world.put var (loop (fun i memory => constructAt type
      (memory.destroy type ((vec.element 0).offset i)) ((vec.element 0).offset i)
      (.element (vec'.element i)) rvalue) amount world.memory, vec)).Lifetimes type := by
  refine lifetimes.put_lasts there (Vec.lasts_replace lifetimes.sound (lifetimes.filled var vec there)
    observed rvalue within fun i bound => ⟨lifetimes.live_element there' (by omega), ?_⟩)
  have different : var ≠ other := fun same => by
    have := apart same
    omega
  intro j _ same
  exact lifetimes.data_ne there there' (lt_of_lt_of_le bound within') different
    (congrArg Prod.fst same)

end Lifetimes

end VecWorld

namespace VecCall

open VecWorld VecWorld.Lifetimes

variable [DecidableEq Var] [Inhabited T] {grants : ℕ → ℕ → Bool} {ReserveSize : ℕ}

variable (type ReserveSize) in
/-- No call assigns to slots that hold no objects or forgets some that do, reads from slots that it
has emptied before, or asks for more bytes than there are. -/
def Careful (world : VecWorld Var T) : VecCall Var T → Prop
  | .constructFixedSize _ _ numElements => numElements = 0
  | .constructVec _ numElements => max numElements ReserveSize * type.sizeOf < 2 ^ 64
  | .constructVecData _ data => data.size * type.sizeOf < 2 ^ 64
  | .copyAssign var other | .moveAssign var other =>
    ((world.vec var).storage ≠ .vec → (world.vec other).mSize = (world.vec var).mSize) ∧
      (var = other → (world.vec var).mSize = 0)
  | .setCopy var data capacity => ¬ data.RefersTo var ∧
    max data.size (Vec.chosen data.size capacity) * type.sizeOf < 2 ^ 64
  | .setMove var _ => (world.vec var).mSize = 0
  | .operate var operation => operation.Careful type (world.vec var) var
  | _ => True

instance (world : VecWorld Var T) (call : VecCall Var T) :
    Decidable (call.Careful type ReserveSize world) :=
  match call with
  | .constructFixedSize _ _ _ => inferInstanceAs (Decidable (_ = _))
  | .constructVec _ _ | .constructVecData _ _ => inferInstanceAs (Decidable (_ < _))
  | .copyAssign _ _ | .moveAssign _ _ => inferInstanceAs (Decidable ((_ → _) ∧ (_ → _)))
  | .setCopy _ _ _ => inferInstanceAs (Decidable (¬ _ ∧ _))
  | .setMove _ _ => inferInstanceAs (Decidable (_ = _))
  | .operate _ operation => inferInstanceAs (Decidable (operation.Careful ..))
  | .constructFixed _ _ | .constructFixedData _ _ _ | .copyConstruct _ _ | .moveConstruct _ _
  | .destruct _ => inferInstanceAs (Decidable True)

/-- One call. -/
theorem lifetimes_of_step {world after : VecWorld Var T} {call : VecCall Var T}
    (observed : type.trivial = false) (lifetimes : world.Lifetimes type)
    (careful : call.Careful type ReserveSize world)
    (stepped : call.step type grants ReserveSize world = some after) : after.Lifetimes type := by
  unfold step at stepped
  split_ifs at stepped with allowed
  cases call with
  | constructFixed var Capacity =>
    cases stepped
    exact lifetimes.constructFixed allowed Capacity
  | constructFixedSize var Capacity numElements =>
    obtain rfl : numElements = 0 := careful
    obtain rfl : world.put var (world.newFixed Capacity) = after := Option.some.inj stepped
    exact lifetimes.constructFixed allowed Capacity
  | constructFixedData var Capacity data =>
    cases stepped
    refine lifetimes.put_fixed allowed.1 (data.resolve world.vec).data false (min_le_right _ _)
      fun i bound => ?_
    exact lifetimes.live_span allowed.2 (lt_of_lt_of_le bound (min_le_left _ _))
  | constructVec var numElements =>
    obtain ⟨result, ran, rfl⟩ := Option.map_eq_some_iff.mp stepped
    obtain ⟨⟨data, memory⟩, allocated, rfl⟩ := Option.map_eq_some_iff.mp ran
    obtain ⟨rfl, rfl⟩ := Vec.allocate_eq careful allocated
    have within : max numElements (max numElements ReserveSize) ≤ max numElements ReserveSize :=
      max_le (le_max_left _ _) (le_refl _)
    refine lifetimes.put_constructed allowed (fun _ => .temporary default) false
      ⟨.vec, world.memory.blocks.length, numElements, max numElements ReserveSize⟩ rfl within
      (Vec.bounded_heap rfl ?_) fun i bound => trivial
    exact lt_of_le_of_lt (Nat.mul_le_mul_right _ within) careful
  | constructVecData var data =>
    obtain ⟨result, ran, rfl⟩ := Option.map_eq_some_iff.mp stepped
    obtain ⟨⟨newData, memory⟩, allocated, rfl⟩ := Option.map_eq_some_iff.mp ran
    have fits : data.size * type.sizeOf < 2 ^ 64 := careful
    have fits' : max data.size data.size * type.sizeOf < 2 ^ 64 := by rwa [max_self]
    obtain ⟨rfl, rfl⟩ := Vec.allocate_eq fits' allocated
    refine lifetimes.put_constructed allowed.1 (data.resolve world.vec).data false
      ⟨.vec, world.memory.blocks.length, data.size, 0⟩ rfl (max_le (le_max_left _ _) (Nat.zero_le _))
      (Vec.bounded_heap rfl ?_) fun i bound => lifetimes.live_span allowed.2 bound
    change max data.size 0 * type.sizeOf < 2 ^ 64
    rwa [Nat.max_zero]
  | copyConstruct var other =>
    obtain ⟨vec, there⟩ := Option.ne_none_iff_exists'.mp allowed.2
    rw [run, vec_of_some there] at stepped
    split at stepped
    · rename_i heap
      obtain ⟨result, ran, rfl⟩ := Option.map_eq_some_iff.mp stepped
      refine lifetimes.setCopy observed (lifetimes.filled_null .vec) (Buffers.block_of_none allowed.1)
        rfl ?_ (fun i bound => ⟨lifetimes.live_element there bound, fun address same => ?_⟩) ran
      · exact Vec.chosen_fits ((lifetimes.bounded other vec there).1 heap)
      · obtain rfl := Reference.element.inj same
        exact lifetimes.block_ne_zero there bound
    · cases stepped
      refine lifetimes.put_fixed allowed.1 vec.span.data false (min_le_right _ _) fun i bound => ?_
      exact lifetimes.live_element there (lt_of_lt_of_le bound (min_le_left _ _))
  | moveConstruct var other =>
    obtain ⟨vec, there⟩ := Option.ne_none_iff_exists'.mp allowed.2
    rw [run, vec_of_some there] at stepped
    split at stepped
    · cases stepped
      rw [Vec.spanSetMove]
      dsimp only
      rw [Nat.zero_min]
      refine lifetimes.put_null fun address live null => ?_
      rw [Buffers.block_of_none allowed.1] at null
      exact lifetimes.not_live_null address.2 (null ▸ live)
    · cases stepped
      refine lifetimes.put_fixed allowed.1 (fun i => .element ((vec.element 0).offset i)) true
        (min_le_right _ _) fun i bound => ?_
      have bound' : i < vec.mSize := lt_of_lt_of_le bound (min_le_left _ _)
      exact lifetimes.live_element there (show 0 + i < vec.mSize by omega)
  | copyAssign var other =>
    obtain ⟨vec, there⟩ := Option.ne_none_iff_exists'.mp allowed.1
    obtain ⟨vec', there'⟩ := Option.ne_none_iff_exists'.mp allowed.2.1
    have alike := allowed.2.2
    obtain ⟨sizes, apart⟩ := careful
    rw [run] at stepped
    rw [vec_of_some there] at stepped alike sizes apart
    rw [vec_of_some there'] at stepped alike sizes
    split at stepped
    · rename_i heap
      obtain ⟨result, ran, rfl⟩ := Option.map_eq_some_iff.mp stepped
      refine lifetimes.setCopy observed (lifetimes.filled var vec there) (block_of_some there) heap ?_
        (fun i bound => ⟨lifetimes.live_element there' bound, fun address same => ?_⟩) ran
      · exact Vec.chosen_fits ((lifetimes.bounded other vec' there').1 (alike.1.symm.trans heap))
      · obtain rfl := Reference.element.inj same
        refine lifetimes.data_ne there there' bound fun same => ?_
        subst same
        obtain rfl : vec = vec' := Option.some.inj (there.symm.trans there')
        have within : i < vec.mSize := bound
        have := apart rfl
        omega
    · rename_i elsewhere
      have size := sizes elsewhere
      have sized := (lifetimes.bounded var vec there).2 elsewhere
      have all : min vec'.mSize vec.mCapacity = vec.mSize := by omega
      obtain rfl := Option.some.inj stepped
      rw [Vec.fixedSetCopy]
      change VecWorld.Lifetimes type (world.put var (copy type world.memory (vec.element 0)
        vec'.span.data (min vec'.mSize vec.mCapacity),
        { vec with mSize := min vec'.mSize vec.mCapacity }))
      rw [all]
      exact lifetimes.put_replace observed there there' apart false (le_refl _) (by omega)
  | moveAssign var other =>
    obtain ⟨vec, there⟩ := Option.ne_none_iff_exists'.mp allowed.1
    obtain ⟨vec', there'⟩ := Option.ne_none_iff_exists'.mp allowed.2.1
    obtain ⟨sizes, apart⟩ := careful
    rw [run] at stepped
    rw [vec_of_some there] at stepped sizes apart
    rw [vec_of_some there'] at stepped sizes
    have start (i : ℕ) : (vec'.element 0).offset i = vec'.element i :=
      congrArg (Prod.mk vec'.mData) (Nat.zero_add i)
    split at stepped
    · obtain rfl := Option.some.inj stepped
      unfold Vec.spanSetMove Util.move
      simp only [start]
      exact lifetimes.put_replace observed there there' apart true (min_le_left _ _) (min_le_right _ _)
    · rename_i elsewhere
      have size := sizes elsewhere
      have sized := (lifetimes.bounded var vec there).2 elsewhere
      have all : min vec'.mSize vec.mCapacity = vec.mSize := by omega
      obtain rfl := Option.some.inj stepped
      unfold Vec.fixedSetMove Util.move
      simp only [start, all]
      exact lifetimes.put_replace observed there there' apart true (le_refl _) (by omega)
  | setCopy var data capacity =>
    obtain ⟨vec, there⟩ := Option.ne_none_iff_exists'.mp allowed.1
    have heap := allowed.2.1
    obtain ⟨result, ran, rfl⟩ := Option.map_eq_some_iff.mp stepped
    obtain ⟨apart, fits⟩ := careful
    rw [vec_of_some there] at ran heap
    refine lifetimes.setCopy observed (lifetimes.filled var vec there) (block_of_some there) heap fits
      (fun i bound => ⟨lifetimes.live_span allowed.2.2 bound, fun address same => ?_⟩) ran
    obtain ⟨operand, got, allowed', refers⟩ := SpanOperand.get_of_allowed allowed.2.2 bound
    rw [SpanOperand.data_resolve got] at same
    exact lifetimes.resolve_away there allowed' (fun here => apart (refers var here)) same
  | setMove var other =>
    obtain ⟨present, present', heap, heap'⟩ := allowed
    obtain ⟨vec, there⟩ := Option.ne_none_iff_exists'.mp present
    obtain ⟨vec', there'⟩ := Option.ne_none_iff_exists'.mp present'
    have empty : (world.vec var).mSize = 0 := careful
    rw [vec_of_some there] at heap empty
    rw [vec_of_some there'] at heap'
    cases stepped
    exact lifetimes.setMove there there' empty heap heap'
  | operate var operation =>
    obtain ⟨vec, there⟩ := Option.ne_none_iff_exists'.mp allowed.1
    obtain ⟨result, ran, rfl⟩ := Option.map_eq_some_iff.mp stepped
    have careful' : operation.Careful type (world.vec var) var := careful
    rw [vec_of_some there] at ran careful'
    exact lifetimes.operate observed there allowed.2 careful' ran
  | destruct var =>
    obtain ⟨vec, there⟩ := Option.ne_none_iff_exists'.mp allowed
    cases stepped
    exact lifetimes.release observed there

omit [DecidableEq Var] [Inhabited T] in
theorem lifetimes_empty (type : ObjectType T) : ({} : VecWorld Var T).Lifetimes type where
  sound := Sound.empty
  filled _ _ there := by cases there
  placed _ _ there := by cases there
  bounded _ _ there := by cases there
  apart _ _ _ real := absurd rfl real
  owned _ live := absurd rfl live
  null := rfl
  beyond _ member := by cases member
  tame := rfl

/-- In every state that a program reaches whose calls are careful, the slots of every vector hold
objects exactly below its size, and none was misused; once there are no vectors any more, every
element has been destroyed exactly once. -/
theorem lifetimes_of_run {path : List (VecCall Var T)} {final : VecWorld Var T}
    (observed : type.trivial = false)
    (careful : RunMeets (step type grants ReserveSize)
      (fun world call => call.Careful type ReserveSize world) {} path)
    (ran : Machine.run (step type grants ReserveSize) {} path = some final) :
    final.Lifetimes type ∧ ((∀ var, final.objects var = none) →
      ∀ id < final.memory.constructed, final.memory.destroyed.count id = 1) := by
  have lifetimes : final.Lifetimes type :=
    run_invariant (fun _ _ _ before => lifetimes_of_step observed before) (lifetimes_empty type)
      careful ran
  refine ⟨lifetimes, fun gone id bound => (lifetimes.sound.once id bound).resolve_left ?_⟩
  rintro ⟨address, object, there, -⟩
  have live : final.memory.Live address := fun none => by
    rw [there] at none
    cases none
  obtain ⟨owner, own⟩ := lifetimes.owned address live
  rw [Buffers.block_of_none (gone owner)] at own
  exact lifetimes.not_live_null address.2 (own ▸ live)

/-- Vectors of handles that are constructed, copied and grown, and then destructed. -/
def handlesPath : List (VecCall ℕ ℕ) :=
  [.constructVec 0 2, .operate 0 (.insert (.value 3) false 1), .constructVecData 1 (.elements 0 0 2),
    .operate 1 (.add (.element 0 0) true), .operate 1 (.remove 0), .copyAssign 1 0,
    .constructFixedData 2 4 (.elements 1 0 2), .operate 2 (.insert (.element 2 1) false 0),
    .operate 2 (.resize 2 (.value 0)), .copyConstruct 3 2, .copyAssign 3 2, .moveAssign 0 1,
    .operate 1 .clear, .destruct 0, .destruct 1, .destruct 2, .destruct 3]

/-- The state after that program. -/
def handlesFinal : VecWorld ℕ ℕ :=
  (Machine.run (step handle (fun _ _ => true) 0) {} handlesPath).getD {}

theorem lifetimes_of_run_handles : handlesFinal.Lifetimes handle ∧
    ((∀ var, handlesFinal.objects var = none) →
      ∀ id < handlesFinal.memory.constructed, handlesFinal.memory.destroyed.count id = 1) := by
  have ran : Machine.run (step handle (fun _ _ => true) 0) {} handlesPath = some handlesFinal := rfl
  exact lifetimes_of_run rfl (by decide) ran

/-- A `FixedVec` that is extended destroys what is not there. -/
theorem extend_not_lifetimes : ¬ ∀ (path : List (VecCall ℕ ℕ)) (final : VecWorld ℕ ℕ),
    Machine.run (step handle (fun _ _ => true) 0) {} path = some final → final.Lifetimes handle := by
  intro always
  have lifetimes := always [.constructFixed 0 2, .operate 0 (.extend 1 (.value 7))] _ rfl
  exact absurd lifetimes.sound.used (by decide)

end VecCall

end Hakkun.Container
