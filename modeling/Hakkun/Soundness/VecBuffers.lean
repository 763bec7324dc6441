import Hakkun.Machine.Core.Run
import Hakkun.Model.Container.VecObjects
import Hakkun.Soundness.VecBlocks

/-! # Buffers of vectors

Every block has one vector that owns it, or has been freed once. What breaks this: a vector that is
made from data does not set its capacity, and `setCopy` and `setMove`, the first of which the copy
assignment calls, forget the block that the vector had.
-/

namespace Hakkun.Container

open Machine Machine.Memory Util

variable {Var T : Type} [DecidableEq Var] {type : ObjectType T}

namespace VecWorld

/-- The block that the vector of a variable has. -/
def block (world : VecWorld Var T) (var : Var) : ℕ := (world.objects var).elim 0 Vec.mData

/-- Sizes are within capacities, which are what the blocks were allocated for; every block has one
owner or has been freed exactly once; no access was outside of a block that is allocated. -/
structure Buffers (type : ObjectType T) (world : VecWorld Var T) : Prop where
  sized : ∀ var vec, world.objects var = some vec → vec.mSize ≤ vec.mCapacity
  allocated : ∀ var vec, world.objects var = some vec →
    world.memory.blocks[vec.mData]? = some vec.mCapacity
  fits : ∀ var vec, world.objects var = some vec → vec.storage = .vec →
    vec.mCapacity * type.sizeOf < 2 ^ 64
  owned : ∀ block < world.memory.blocks.length, block ≠ 0 →
    (world.memory.freed.count block = 0 ∧
      ∃ var, world.block var = block ∧ ∀ other, world.block other = block → other = var) ∨
    (world.memory.freed.count block = 1 ∧ ∀ var, world.block var ≠ block)
  stored : ∀ var vec, world.objects var = some vec → vec.storage ≠ .vec → vec.mData ≠ 0
  null : world.memory.blocks[0]? = some 0
  kept : world.memory.freed.count 0 = 0
  beyond : ∀ block, world.memory.blocks.length ≤ block → world.memory.freed.count block = 0
  used : world.memory.wild = false

variable {world : VecWorld Var T} {var other : Var} {vec vec' : Vec} {memory : Memory T}

omit [DecidableEq Var] in
theorem block_of_some (there : world.objects var = some vec) : world.block var = vec.mData := by
  rw [block, there]
  rfl

omit [DecidableEq Var] in
theorem vec_of_some (there : world.objects var = some vec) : world.vec var = vec := by
  rw [VecWorld.vec, there]
  rfl

theorem put_self (world : VecWorld Var T) (var : Var) (state : Memory T × Vec) :
    (world.put var state).objects var = some state.2 := Function.update_self ..

theorem put_of_ne (world : VecWorld Var T) (state : Memory T × Vec) (different : other ≠ var) :
    (world.put var state).objects other = world.objects other :=
  Function.update_of_ne different ..

theorem block_put_self (world : VecWorld Var T) (var : Var) (state : Memory T × Vec) :
    (world.put var state).block var = state.2.mData := block_of_some (put_self ..)

theorem block_put_of_ne (world : VecWorld Var T) (state : Memory T × Vec) (different : other ≠ var) :
    (world.put var state).block other = world.block other := by
  rw [block, put_of_ne world state different, block]

/-- What holds of the object in every other variable and of the new one holds of all. -/
theorem forall_put {P : Vec → Prop} (state : Memory T × Vec) (new : P state.2)
    (old : ∀ other vec, other ≠ var → world.objects other = some vec → P vec) :
    ∀ other vec, (world.put var state).objects other = some vec → P vec := by
  intro other vec there
  by_cases same : other = var
  · subst same
    rw [put_self] at there
    exact Option.some.inj there ▸ new
  · rw [put_of_ne _ _ same] at there
    exact old other vec same there

namespace Buffers

omit [DecidableEq Var] in
theorem placed (buffers : world.Buffers type) (there : world.objects var = some vec) :
    vec.mData < world.memory.blocks.length :=
  (List.getElem?_eq_some_iff.mp (buffers.allocated var vec there)).1

omit [DecidableEq Var] in
/-- The block of a vector has not been freed. -/
theorem unfreed (buffers : world.Buffers type) (there : world.objects var = some vec) :
    vec.mData ∉ world.memory.freed := by
  rw [← List.count_eq_zero]
  by_cases null : vec.mData = 0
  · exact null ▸ buffers.kept
  · rcases buffers.owned _ (buffers.placed there) null with ⟨count, -⟩ | ⟨-, unowned⟩
    · exact count
    · exact absurd (block_of_some there) (unowned var)

omit [DecidableEq Var] in
/-- Every element within a capacity can be accessed. -/
theorem valid (buffers : world.Buffers type) (there : world.objects var = some vec) {i : ℕ}
    (bound : i < vec.mCapacity) : world.memory.Valid (vec.element i) := by
  refine ⟨?_, buffers.unfreed there⟩
  rw [Vec.element, buffers.allocated var vec there]
  exact bound

/-- An operation within the block of a vector. -/
theorem put_stays (buffers : world.Buffers type) (there : world.objects var = some vec)
    {result : Memory T × Vec} (stays : vec.Stays world.memory result) :
    (world.put var result).Buffers type := by
  obtain ⟨calm, size, within, same⟩ := stays
  have blocks (x : Var) : (world.put var result).block x = world.block x := by
    by_cases here : x = var
    · subst here
      rw [block_put_self, same, block_of_some there]
    · exact block_put_of_ne world result here
  refine ⟨?_, ?_, ?_, ?_, ?_, ?_, ?_, ?_, ?_⟩
  · refine forall_put result ?_ fun other vec _ held => buffers.sized other vec held
    rw [same]
    exact within
  · refine forall_put result ?_ fun other vec _ held => ?_
    · rw [same]
      exact (congrArg (·[vec.mData]?) calm.blocks).trans (buffers.allocated var vec there)
    · exact (congrArg (·[vec.mData]?) calm.blocks).trans (buffers.allocated other vec held)
  · refine forall_put result ?_ fun other vec _ held => buffers.fits other vec held
    rw [same]
    exact buffers.fits var vec there
  · simp only [blocks]
    change ∀ block < result.1.blocks.length, _
    rw [calm.blocks]
    change ∀ block, _ → _ → (result.1.freed.count block = 0 ∧ _) ∨ (result.1.freed.count block = 1 ∧ _)
    rw [calm.freed]
    exact buffers.owned
  · refine forall_put result ?_ fun other vec _ held => buffers.stored other vec held
    rw [same]
    exact buffers.stored var vec there
  · exact (congrArg (·[0]?) calm.blocks).trans buffers.null
  · exact (congrArg (·.count 0) calm.freed).trans buffers.kept
  · change ∀ block, result.1.blocks.length ≤ block → result.1.freed.count block = 0
    rw [calm.blocks, calm.freed]
    exact buffers.beyond
  · exact calm.wild.trans buffers.used

omit [DecidableEq Var] in
theorem block_lt (buffers : world.Buffers type) (var : Var) :
    world.block var < world.memory.blocks.length := by
  cases there : world.objects var with
  | none =>
    rw [VecWorld.block, there]
    exact (List.getElem?_eq_some_iff.mp buffers.null).1
  | some vec =>
    rw [block_of_some there]
    exact buffers.placed there

omit [DecidableEq Var] in
/-- The number of times that a block has been freed, when the block of a vector is. -/
theorem count_freed {freed : List ℕ} {old block : ℕ} (different : block ≠ old ∨ old = 0) :
    (if old = 0 then freed else old :: freed).count block = freed.count block := by
  split_ifs with null
  · rfl
  · exact List.count_cons_of_ne (different.resolve_right null).symm

/-- A vector gets a new block, and the one it had is freed. -/
theorem put_new (buffers : world.Buffers type) {result : Memory T × Vec}
    (blocks : result.1.blocks = world.memory.blocks ++ [result.2.mCapacity])
    (freed : result.1.freed = if world.block var = 0 then world.memory.freed
      else world.block var :: world.memory.freed)
    (wild : result.1.wild = false) (data : result.2.mData = world.memory.blocks.length)
    (sized : result.2.mSize ≤ result.2.mCapacity)
    (fits : result.2.storage = .vec → result.2.mCapacity * type.sizeOf < 2 ^ 64) :
    (world.put var result).Buffers type := by
  have length : result.1.blocks.length = world.memory.blocks.length + 1 := by
    rw [blocks, List.length_append, List.length_singleton]
  have older (block : ℕ) (bound : block < world.memory.blocks.length) :
      result.1.blocks[block]? = world.memory.blocks[block]? := by
    rw [blocks, List.getElem?_append_left bound]
  have bound := buffers.block_lt var
  have positive := (List.getElem?_eq_some_iff.mp buffers.null).1
  refine ⟨?_, ?_, ?_, ?_, ?_, ?_, ?_, ?_, wild⟩
  · exact forall_put result sized fun other vec _ held => buffers.sized other vec held
  · refine forall_put result ?_ fun other vec _ held => ?_
    · change result.1.blocks[result.2.mData]? = _
      rw [blocks, data, List.getElem?_append_right (le_refl _), Nat.sub_self]
      rfl
    · exact (older _ (buffers.placed held)).trans (buffers.allocated other vec held)
  · exact forall_put result fits fun other vec _ held => buffers.fits other vec held
  · change ∀ block < result.1.blocks.length, block ≠ 0 → (result.1.freed.count block = 0 ∧ _) ∨
      (result.1.freed.count block = 1 ∧ _)
    intro block below real
    rw [length] at below
    rw [freed]
    rcases Nat.lt_succ_iff_lt_or_eq.mp below with earlier | rfl
    · by_cases own : block = world.block var
      · -- the block that the vector had
        right
        obtain ⟨count, owner, -, unique⟩ | ⟨-, unowned⟩ := buffers.owned block earlier real
        · refine ⟨by rw [if_neg (own ▸ real), ← own, List.count_cons_self, count], fun x here => ?_⟩
          by_cases same : x = var
          · subst same
            rw [block_put_self, data] at here
            omega
          · rw [block_put_of_ne _ _ same] at here
            exact same ((unique x here).trans (unique var own.symm).symm)
        · exact absurd own.symm (unowned var)
      · rw [count_freed (.inl own)]
        have others (x : Var) : (world.put var result).block x = block ↔ world.block x = block := by
          by_cases same : x = var
          · subst same
            rw [block_put_self, data]
            exact iff_of_false (by omega) (Ne.symm own)
          · rw [block_put_of_ne _ _ same]
        simp only [ne_eq, others]
        exact buffers.owned block earlier real
    · left
      refine ⟨by rw [count_freed (.inl (by omega)), buffers.beyond _ (le_refl _)], var,
        (block_put_self ..).trans data, fun x here => ?_⟩
      by_contra same
      rw [block_put_of_ne _ _ same] at here
      have := buffers.block_lt x
      omega
  · exact forall_put result (fun _ => by omega) fun other vec _ held => buffers.stored other vec held
  · exact (older 0 positive).trans buffers.null
  · change result.1.freed.count 0 = 0
    rw [freed, count_freed (by omega), buffers.kept]
  · change ∀ block, result.1.blocks.length ≤ block → result.1.freed.count block = 0
    intro block above
    rw [freed, count_freed (.inl (by omega)), buffers.beyond _ (by omega)]

theorem put_put (world : VecWorld Var T) (var : Var) (first second : Memory T × Vec) :
    (world.put var first).put var second = world.put var second := by
  unfold put
  rw [Function.update_idem]

/-- A vector that grows. -/
theorem grow (buffers : world.Buffers type) (there : world.objects var = some vec)
    {grants : ℕ → ℕ → Bool} {capacity : ℕ} {result : Memory T × Vec}
    (fits : vec.Grows capacity → vec.Fits type capacity)
    (ran : vec.grow type world.memory grants capacity = some result) :
    (world.put var result).Buffers type ∧
      (result = (world.memory, vec) ∨ vec.Grows capacity) := by
  obtain ⟨after, vec'⟩ := result
  have sized := buffers.sized var vec there
  rcases Vec.grow_cases fits ran with ⟨-, rfl, rfl⟩ | ⟨grows, rfl, rfl⟩
  · exact ⟨buffers.put_stays there ⟨Calm.refl _, vec'.mSize, sized, rfl⟩, .inl rfl⟩
  · refine ⟨?_, .inr grows⟩
    have large : max vec.mSize capacity = capacity := max_eq_right (by have := grows.2; omega)
    have fits := fits grows
    rw [Vec.Fits, large] at fits
    have new : world.memory.blocks.length ∉ world.memory.freed := by
      rw [← List.count_eq_zero]
      exact buffers.beyond _ (le_refl _)
    have validDest (i : ℕ) (bound : i < vec.mSize) :
        (extended world.memory (max vec.mSize capacity)).Valid
          (world.memory.blocks.length, i) := by
      refine ⟨?_, new⟩
      rw [extended_new]
      exact lt_of_lt_of_le bound (le_max_left _ _)
    have validSource (i : ℕ) (bound : i < vec.mSize) :
        (extended world.memory (max vec.mSize capacity)).Valid (vec.element i) := by
      obtain ⟨inside, kept⟩ := buffers.valid there (lt_of_lt_of_le bound sized)
      refine ⟨?_, kept⟩
      rw [Vec.element, extended_old (buffers.placed there)]
      exact inside
    obtain ⟨blocks, freed, wild⟩ := Vec.relocate_fields type validDest validSource
    refine buffers.put_new ?_ ?_ (wild.trans buffers.used) rfl ?_ fun _ => fits
    · exact blocks.trans (by rw [large]; rfl)
    · rw [block_of_some there]
      exact freed
    · exact le_trans sized (le_of_lt grows.2)

omit [DecidableEq Var] in
/-- What an argument refers to can be accessed. -/
theorem valid_resolve (buffers : world.Buffers type) {operand : Operand Var T}
    (allowed : operand.Allowed world.size) : (operand.resolve world.vec).Valid world.memory := by
  cases operand with
  | value given => trivial
  | element owner index =>
    cases there : world.objects owner with
    | none =>
      have empty : world.size owner = 0 := by rw [size, VecWorld.vec, there]; rfl
      exact absurd (empty ▸ allowed : index < 0) (Nat.not_lt_zero _)
    | some vec =>
      have bound : index < vec.mSize := by
        rw [Operand.Allowed, size, vec_of_some there] at allowed
        exact allowed
      rw [Operand.resolve, vec_of_some there]
      exact buffers.valid there (lt_of_lt_of_le bound (buffers.sized owner vec there))

omit [DecidableEq Var] in
theorem valid_span (buffers : world.Buffers type) {data : SpanOperand Var T}
    (allowed : data.Allowed world.size) {i : ℕ} (bound : i < data.size) :
    ((data.resolve world.vec).data i).Valid world.memory := by
  obtain ⟨operand, got, allowed', -⟩ := SpanOperand.get_of_allowed allowed bound
  rw [SpanOperand.data_resolve got]
  exact buffers.valid_resolve allowed'

theorem vec_put_of_ne (world : VecWorld Var T) (state : Memory T × Vec) (different : other ≠ var) :
    (world.put var state).vec other = world.vec other := by
  rw [VecWorld.vec, put_of_ne world state different, VecWorld.vec]

theorem vec_put_self (world : VecWorld Var T) (var : Var) (state : Memory T × Vec) :
    (world.put var state).vec var = state.2 := vec_of_some (put_self ..)

/-- After growing, arguments refer to what they did, or to nothing of the vector. -/
theorem vec_grown (there : world.objects var = some vec) {capacity : ℕ} {result : Memory T × Vec}
    (same : result = (world.memory, vec) ∨ vec.Grows capacity) {owner : Var}
    (other : vec.Grows capacity → owner ≠ var) :
    (world.put var result).vec owner = world.vec owner := by
  by_cases here : owner = var
  · subst here
    rcases same with rfl | grows
    · rw [vec_put_self, vec_of_some there]
    · exact absurd rfl (other grows)
  · exact vec_put_of_ne world result here

theorem resolve_grown (there : world.objects var = some vec) {capacity : ℕ}
    {result : Memory T × Vec} (same : result = (world.memory, vec) ∨ vec.Grows capacity)
    {operand : Operand Var T} (other : vec.Grows capacity → ¬ operand.RefersTo var)
    (allowed : operand.Allowed world.size) :
    operand.resolve world.vec = operand.resolve (world.put var result).vec ∧
      operand.Allowed (world.put var result).size := by
  cases operand with
  | value given => exact ⟨rfl, trivial⟩
  | element owner index =>
    have kept := vec_grown there same other
    refine ⟨by rw [Operand.resolve, Operand.resolve, kept], ?_⟩
    rw [Operand.Allowed, size, kept]
    exact allowed

theorem resolve_span_grown (there : world.objects var = some vec) {capacity : ℕ}
    {result : Memory T × Vec} (same : result = (world.memory, vec) ∨ vec.Grows capacity)
    {data : SpanOperand Var T} (other : vec.Grows capacity → ¬ data.RefersTo var)
    (allowed : data.Allowed world.size) {i : ℕ} (bound : i < data.size) :
    ∃ operand : Operand Var T, data.get i = some operand ∧
      operand.resolve world.vec = operand.resolve (world.put var result).vec ∧
      operand.Allowed (world.put var result).size := by
  obtain ⟨operand, got, allowed', refers⟩ := SpanOperand.get_of_allowed allowed bound
  exact ⟨operand, got, resolve_grown there same (fun grows here => other grows (refers var here))
    allowed'⟩

/-- An operation on a vector. -/
theorem operate (buffers : world.Buffers type) (there : world.objects var = some vec)
    {grants : ℕ → ℕ → Bool} {operation : Operation Var T} {result : Memory T × Vec}
    (allowed : operation.Allowed world.size) (well : operation.GrowsWell type vec var)
    (ran : operation.run type grants world.vec world.memory vec = some result) :
    (world.put var result).Buffers type := by
  -- first the vector grows, then the operation stays within its block
  have growing (capacity : ℕ) (next : Memory T → Vec → Option (Memory T × Vec))
      (fits : vec.Grows capacity → vec.Fits type capacity)
      (ran : (vec.grow type world.memory grants capacity).bind (fun state =>
        next state.1 state.2) = some result)
      (stays : ∀ state : Memory T × Vec, (state = (world.memory, vec) ∨ vec.Grows capacity) →
        (world.put var state).Buffers type → next state.1 state.2 = some result →
          state.2.Stays state.1 result) : (world.put var result).Buffers type := by
    obtain ⟨state, grown, ran⟩ := Option.bind_eq_some_iff.mp ran
    obtain ⟨buffers', same⟩ := buffers.grow there fits grown
    have stayed := stays state same buffers' ran
    have := buffers'.put_stays (put_self world var state) stayed
    rwa [put_put] at this
  have sized := buffers.sized var vec there
  have room (state : Memory T × Vec) (buffers' : (world.put var state).Buffers type) :
      ∀ i < state.2.mCapacity, state.1.Valid (state.2.element i) :=
    fun i bound => buffers'.valid (put_self world var state) bound
  have source {operand : Operand Var T} {capacity : ℕ} (allowed : operand.Allowed world.size)
      (other : vec.Grows capacity → ¬ operand.RefersTo var) (state : Memory T × Vec)
      (same : state = (world.memory, vec) ∨ vec.Grows capacity)
      (buffers' : (world.put var state).Buffers type) :
      (operand.resolve world.vec).Valid state.1 := by
    obtain ⟨equal, allowed'⟩ := resolve_grown there same other allowed
    rw [equal]
    exact buffers'.valid_resolve allowed'
  have inserting {operand : Operand Var T} {rvalue : Bool} {index : ℕ}
      (allowed : operand.Allowed world.size)
      (well : vec.Grows (vec.mSize + 1) → vec.Fits type (vec.mSize + 1) ∧ ¬ operand.RefersTo var)
      (ran : vec.insert type world.memory grants (operand.resolve world.vec) rvalue index =
        some result) : (world.put var result).Buffers type :=
    growing (vec.mSize + 1) (fun memory vec => Vec.Base.insert type memory vec
      (operand.resolve world.vec) rvalue index) (fun grows => (well grows).1) ran
      fun state same buffers' ran => Vec.stays_insert (room state buffers')
        (source allowed (fun grows => (well grows).2) state same buffers') ran
  have base : ∀ i < vec.mCapacity, world.memory.Valid (vec.element i) :=
    fun i bound => buffers.valid there bound
  cases operation with
  | add operand rvalue =>
    exact growing (vec.mSize + 1) (fun memory vec => Vec.Base.add type memory vec
      (operand.resolve world.vec) rvalue) (fun grows => (well grows).1) ran
      fun state same buffers' ran => Vec.stays_add (room state buffers')
        (source allowed (fun grows => (well grows).2) state same buffers') ran
  | insert operand rvalue index => exact inserting allowed well ran
  | emplaceAt index operand rvalue => exact inserting allowed well ran
  | pushFront operand rvalue => exact inserting allowed well ran
  | append data =>
    refine growing (vec.mSize + data.size) (fun memory vec => Vec.Base.append type memory vec
      (data.resolve world.vec)) (fun grows => (well grows).1) ran
      fun state same buffers' ran => Vec.stays_append (room state buffers') (fun i bound => ?_) ran
    obtain ⟨operand, got, equal, allowed'⟩ := resolve_span_grown there same
      (fun grows => (well grows).2) allowed bound
    rw [SpanOperand.data_resolve got, equal]
    exact buffers'.valid_resolve allowed'
  | remove index =>
    obtain ⟨removed, taken, rfl⟩ := Option.map_eq_some_iff.mp ran
    exact buffers.put_stays there (Vec.stays_remove base sized taken)
  | popBack =>
    obtain ⟨removed, taken, rfl⟩ := Option.map_eq_some_iff.mp ran
    unfold Vec.Base.popBack at taken
    split_ifs at taken
    exact buffers.put_stays there (Vec.stays_remove base sized taken)
  | popFront =>
    obtain ⟨removed, taken, rfl⟩ := Option.map_eq_some_iff.mp ran
    unfold Vec.Base.popFront at taken
    split_ifs at taken
    exact buffers.put_stays there (Vec.stays_remove base sized taken)
  | extend newSize operand =>
    exact growing newSize (fun memory vec => Vec.Base.extend type memory vec newSize
      (operand.resolve world.vec)) (fun grows => (well grows).1) ran
      fun state same buffers' ran => Vec.stays_extend (room state buffers')
        (source allowed (fun grows => (well grows).2) state same buffers') ran
  | resize newSize operand =>
    exact growing newSize (fun memory vec => Vec.Base.resize type memory vec newSize
      (operand.resolve world.vec)) (fun grows => (well grows).1) ran
      fun state same buffers' ran => Vec.stays_resize (room state buffers')
        (buffers'.sized var state.2 (put_self world var state))
        (source allowed (fun grows => (well grows).2) state same buffers') ran
  | truncate newSize => exact buffers.put_stays there (Vec.stays_truncate base sized ran)
  | clear =>
    cases ran
    exact buffers.put_stays there (Vec.stays_clear base sized)
  | reserve capacity => exact (buffers.grow there (fun grows => (well grows).1) ran).1

section New

variable {result : Memory T × Vec}

/-- A vector without a block gets a new one. -/
theorem put_extended (buffers : world.Buffers type) (unowned : world.block var = 0)
    (calm : Calm (extended world.memory result.2.mCapacity) result.1)
    (data : result.2.mData = world.memory.blocks.length)
    (sized : result.2.mSize ≤ result.2.mCapacity)
    (fits : result.2.storage = .vec → result.2.mCapacity * type.sizeOf < 2 ^ 64) :
    (world.put var result).Buffers type :=
  buffers.put_new calm.blocks (calm.freed.trans (if_pos unowned).symm)
    (calm.wild.trans buffers.used) data sized fits

omit [DecidableEq Var] in
theorem valid_new (buffers : world.Buffers type) {count i : ℕ} (bound : i < count) :
    (extended world.memory count).Valid (world.memory.blocks.length, i) := by
  refine ⟨?_, ?_⟩
  · rw [extended_new]
    exact bound
  · have new := buffers.beyond _ (le_refl _)
    exact List.count_eq_zero.mp new

omit [DecidableEq Var] in
theorem block_of_none (absent : world.objects var = none) : world.block var = 0 := by
  rw [block, absent]
  rfl

theorem constructFixed (buffers : world.Buffers type) (absent : world.objects var = none)
    (Capacity : ℕ) : (world.put var (world.newFixed Capacity)).Buffers type :=
  buffers.put_extended (block_of_none absent) (Calm.refl _) rfl (Nat.zero_le _)
    (fun heap => by cases heap)

/-- A new `FixedVec` after something within its storage. -/
theorem put_newFixed (buffers : world.Buffers type) (absent : world.objects var = none)
    {Capacity : ℕ} (stays : (world.newFixed Capacity).2.Stays (world.newFixed Capacity).1 result) :
    (world.put var result).Buffers type := by
  have := (buffers.constructFixed absent Capacity).put_stays (put_self ..) stays
  rwa [put_put] at this

/-- `constructData` of a `FixedVec`. -/
theorem constructData (buffers : world.Buffers type) (absent : world.objects var = none)
    (Capacity : ℕ) {data : Util.Span T} (sources : ∀ i < data.size, (data.data i).Valid world.memory) :
    (world.put var ((world.newFixed Capacity).2.constructData type (world.newFixed Capacity).1
      data)).Buffers type := by
  refine buffers.put_newFixed absent ⟨?_, _, min_le_right _ _, rfl⟩
  refine calm_constructCopy (fun i bound => ?_) fun i bound => ?_
  · have within : i < Capacity := lt_of_lt_of_le bound (min_le_right _ _)
    have := buffers.valid_new within
    rwa [← Nat.zero_add i] at this
  · have source := sources i (lt_of_lt_of_le bound (min_le_left _ _))
    exact reference_extended source Capacity

/-- The move constructor of a `FixedVec`. -/
theorem constructMoved (buffers : world.Buffers type) (absent : world.objects var = none)
    (there : world.objects other = some vec) :
    (world.put var ((world.newFixed vec.mCapacity).2.constructMoved type
      (world.newFixed vec.mCapacity).1 vec)).Buffers type := by
  have sized := buffers.sized other vec there
  refine buffers.put_newFixed absent ⟨?_, _, min_le_right _ _, rfl⟩
  refine calm_constructMove (fun i bound => ?_) fun i bound => ?_
  · have within : i < vec.mCapacity := lt_of_lt_of_le bound (min_le_right _ _)
    have := buffers.valid_new within
    rwa [← Nat.zero_add i] at this
  · have within : 0 + i < vec.mCapacity := by
      change i < min vec.mSize vec.mCapacity at bound
      omega
    exact valid_extended (buffers.valid there within) vec.mCapacity

omit [DecidableEq Var] in
theorem span_valid (buffers : world.Buffers type) (there : world.objects var = some vec) {i : ℕ}
    (bound : i < vec.mSize) : (vec.span.data i).Valid world.memory :=
  buffers.valid there (lt_of_lt_of_le bound (buffers.sized var vec there))

/-- `setCopy` of a `Vec` without a block. -/
theorem setCopy (buffers : world.Buffers type) (unowned : world.block var = 0)
    (heap : vec.mSize = 0) {grants : ℕ → ℕ → Bool} {data : Util.Span T} {capacity : ℕ}
    (sources : ∀ i < data.size, (data.data i).Valid world.memory)
    (enough : data.size ≤ Vec.chosen data.size capacity)
    (fits : Vec.chosen data.size capacity * type.sizeOf < 2 ^ 64)
    (ran : Vec.setCopy type grants world.memory vec data capacity = some result) :
    (world.put var result).Buffers type := by
  have large : max data.size (Vec.chosen data.size capacity) = Vec.chosen data.size capacity :=
    max_eq_right enough
  obtain rfl := Vec.setCopy_eq (large.symm ▸ fits) ran
  rw [heap, large]
  refine buffers.put_extended unowned ?_ rfl enough fun _ => fits
  refine calm_constructCopy (fun i bound => ?_) fun i bound => reference_extended (sources i bound) _
  have := buffers.valid_new (lt_of_lt_of_le bound enough)
  rwa [← Nat.zero_add i] at this

/-- A `Vec` without a block. -/
theorem put_empty (buffers : world.Buffers type) (unowned : world.block var = 0) :
    (world.put var (world.memory, { storage := .vec })).Buffers type := by
  have blocks (x : Var) :
      (world.put var (world.memory, { storage := .vec })).block x = world.block x := by
    by_cases here : x = var
    · subst here
      rw [block_put_self, unowned]
    · exact block_put_of_ne world _ here
  refine ⟨?_, ?_, ?_, ?_, ?_, buffers.null, buffers.kept, buffers.beyond, buffers.used⟩
  · exact forall_put _ (le_refl 0) fun other vec _ held => buffers.sized other vec held
  · exact forall_put _ buffers.null fun other vec _ held => buffers.allocated other vec held
  · refine forall_put _ (fun _ => ?_) fun other vec _ held => buffers.fits other vec held
    rw [Nat.zero_mul]
    exact Nat.two_pow_pos 64
  · simp only [blocks]
    exact buffers.owned
  · exact forall_put _ (fun elsewhere => absurd rfl elsewhere)
      fun other vec _ held => buffers.stored other vec held

omit [DecidableEq Var] in
/-- A vector without a block is empty. -/
theorem empty_of_unowned (buffers : world.Buffers type) (there : world.objects var = some vec)
    (unowned : world.block var = 0) : vec.mData = 0 ∧ vec.mCapacity = 0 ∧ vec.mSize = 0 := by
  have data : vec.mData = 0 := (block_of_some there).symm.trans unowned
  have capacity := buffers.allocated var vec there
  rw [data, buffers.null] at capacity
  have sized := buffers.sized var vec there
  have := Option.some.inj capacity
  exact ⟨data, by omega, by omega⟩

/-- `setMove` to a `Vec` without a block. -/
theorem setMove (buffers : world.Buffers type) (there : world.objects var = some vec)
    (source : world.objects other = some vec') (unowned : world.block var = 0)
    (heap : vec.storage = .vec) (heap' : vec'.storage = .vec) :
    (world.setMove var other).Buffers type := by
  obtain ⟨storage, mData, mSize, mCapacity⟩ := vec
  obtain ⟨storage', mData', mSize', mCapacity'⟩ := vec'
  obtain rfl : storage = .vec := heap
  obtain rfl : storage' = .vec := heap'
  unfold VecWorld.setMove
  rw [vec_of_some there, vec_of_some source]
  dsimp only
  by_cases same : var = other
  · subst same
    rw [vec_put_self]
    change VecWorld.Buffers type ((world.put var _).put var (world.memory, _))
    rw [put_put]
    exact buffers.put_empty unowned
  · rw [vec_put_of_ne _ _ (Ne.symm same), vec_of_some source]
    have sized := buffers.sized other _ source
    have allocated := buffers.allocated other _ source
    have fits := buffers.fits other _ source rfl
    have blocks (x : Var) :
        ((world.put var (world.memory, ⟨.vec, mData', mSize', mCapacity'⟩)).put other
          (world.memory, ⟨.vec, 0, 0, 0⟩)).block x = world.block (Equiv.swap var other x) := by
      by_cases here : x = other
      · subst here
        rw [block_put_self, Equiv.swap_apply_right, unowned]
      · rw [block_put_of_ne _ _ here]
        by_cases here' : x = var
        · subst here'
          rw [block_put_self, Equiv.swap_apply_left, block_of_some source]
        · rw [block_put_of_ne _ _ here', Equiv.swap_apply_of_ne_of_ne here' here]
    have each {P : Vec → Prop} (new : P ⟨.vec, mData', mSize', mCapacity'⟩) (null : P ⟨.vec, 0, 0, 0⟩)
        (old : ∀ x vec, world.objects x = some vec → P vec) :
        ∀ x vec, ((world.put var (world.memory, ⟨.vec, mData', mSize', mCapacity'⟩)).put other
          (world.memory, ⟨.vec, 0, 0, 0⟩)).objects x = some vec → P vec :=
      forall_put _ null fun x vec _ held => forall_put _ new (fun x vec _ held => old x vec held) x vec held
    refine ⟨each sized (le_refl 0) buffers.sized, each allocated buffers.null buffers.allocated,
      each (fun _ => fits) (fun _ => ?_) buffers.fits, ?_,
      each (fun elsewhere => absurd rfl elsewhere) (fun elsewhere => absurd rfl elsewhere)
        buffers.stored, buffers.null, buffers.kept, buffers.beyond, buffers.used⟩
    · rw [Nat.zero_mul]
      exact Nat.two_pow_pos 64
    · intro block bound real
      refine (buffers.owned block bound real).imp ?_ ?_
      · rintro ⟨count, owner, own, unique⟩
        refine ⟨count, Equiv.swap var other owner, ?_, fun x here => ?_⟩
        · exact (blocks _).trans (by rw [Equiv.swap_apply_self, own])
        · rw [← unique _ ((blocks x).symm.trans here), Equiv.swap_apply_self]
      · rintro ⟨count, unowned⟩
        exact ⟨count, fun x here => unowned _ ((blocks x).symm.trans here)⟩

/-- The end of a vector and of its block. -/
theorem remove (buffers : world.Buffers type) {memory : Memory T}
    (blocks : memory.blocks = world.memory.blocks)
    (freed : memory.freed = if world.block var = 0 then world.memory.freed
      else world.block var :: world.memory.freed) (wild : memory.wild = false) :
    Buffers type
      ⟨memory, Function.update world.objects var none⟩ := by
  set after : VecWorld Var T := ⟨memory, Function.update world.objects var none⟩ with result
  have others {x : Var} (different : x ≠ var) : after.objects x = world.objects x :=
    Function.update_of_ne different ..
  have gone : after.objects var = none := Function.update_self ..
  have blockOthers {x : Var} (different : x ≠ var) : after.block x = world.block x := by
    rw [VecWorld.block, others different, VecWorld.block]
  have held {x : Var} {vec : Vec} (there : after.objects x = some vec) :
      world.objects x = some vec := by
    by_cases same : x = var
    · subst same
      rw [gone] at there
      cases there
    · rwa [others same] at there
  refine ⟨fun x vec there => buffers.sized x vec (held there), fun x vec there => ?_,
    fun x vec there => buffers.fits x vec (held there), ?_,
    fun x vec there => buffers.stored x vec (held there), ?_, ?_, ?_, wild⟩
  · exact (congrArg (·[vec.mData]?) blocks).trans (buffers.allocated x vec (held there))
  · change ∀ block < memory.blocks.length, block ≠ 0 → (memory.freed.count block = 0 ∧ _) ∨
      (memory.freed.count block = 1 ∧ _)
    intro block bound real
    rw [blocks] at bound
    rw [freed]
    by_cases own : block = world.block var
    · right
      obtain ⟨count, owner, -, unique⟩ | ⟨-, unowned⟩ := buffers.owned block bound real
      · refine ⟨by rw [if_neg (own ▸ real), ← own, List.count_cons_self, count], fun x here => ?_⟩
        by_cases same : x = var
        · subst same
          rw [block_of_none gone] at here
          exact real here.symm
        · rw [blockOthers same] at here
          exact same ((unique x here).trans (unique var own.symm).symm)
      · exact absurd own.symm (unowned var)
    · rw [count_freed (.inl own)]
      have same (x : Var) : after.block x = block ↔ world.block x = block := by
        by_cases here : x = var
        · subst here
          rw [block_of_none gone]
          exact iff_of_false (Ne.symm real) (Ne.symm own)
        · rw [blockOthers here]
      simp only [ne_eq, same]
      exact buffers.owned block bound real
  · exact (congrArg (·[0]?) blocks).trans buffers.null
  · change memory.freed.count 0 = 0
    rw [freed, count_freed (by omega), buffers.kept]
  · change ∀ block, memory.blocks.length ≤ block → memory.freed.count block = 0
    intro block above
    have bound := buffers.block_lt var
    rw [blocks] at above
    rw [freed, count_freed (.inl (by omega)), buffers.beyond _ (by omega)]

/-- The destructor. -/
theorem release (buffers : world.Buffers type) (there : world.objects var = some vec) :
    (world.release type var).Buffers type := by
  have stays : vec.Stays world.memory (Vec.Base.clear type world.memory vec) :=
    Vec.stays_clear (fun i bound => buffers.valid there bound) (buffers.sized var vec there)
  obtain ⟨calm, -⟩ := stays
  set cleared := (Vec.Base.clear type world.memory vec).1
  have ended : (world.release type var).memory =
      if world.block var = 0 then cleared else cleared.free (world.block var) := by
    have stored := buffers.stored var vec there
    rw [block_of_some there]
    unfold VecWorld.release
    rw [vec_of_some there]
    dsimp only [Vec.Base.clear]
    cases heap : vec.storage with
    | vec => rfl
    | fixedVec => exact (if_neg (stored (by simp [heap]))).symm
    | vecSpan => exact (if_neg (stored (by simp [heap]))).symm
  have shape : world.release type var =
      ⟨(world.release type var).memory, Function.update world.objects var none⟩ := rfl
  rw [shape, ended]
  refine buffers.remove ?_ ?_ ?_ <;> split_ifs
  · exact calm.blocks
  · exact calm.blocks
  · exact calm.freed
  · exact congrArg (_ :: ·) calm.freed
  · exact calm.wild.trans buffers.used
  · exact calm.wild.trans buffers.used

end New

end Buffers

end VecWorld

namespace VecCall

open VecWorld VecWorld.Buffers

variable [Inhabited T] {grants : ℕ → ℕ → Bool} {ReserveSize : ℕ}

variable (type ReserveSize) in
/-- No vector is made from data or assigned to while it has a block, and no operation reads from a
block that it frees or asks for more bytes than there are. -/
def Conserves (world : VecWorld Var T) : VecCall Var T → Prop
  | .constructVec _ numElements => max numElements ReserveSize * type.sizeOf < 2 ^ 64
  | .constructVecData _ data => data.size = 0
  | .copyAssign var _ => (world.vec var).storage = .vec → world.block var = 0
  | .setCopy var data capacity => world.block var = 0 ∧
    data.size ≤ Vec.chosen data.size capacity ∧
    Vec.chosen data.size capacity * type.sizeOf < 2 ^ 64
  | .setMove var _ => world.block var = 0
  | .operate var operation => operation.GrowsWell type (world.vec var) var
  | _ => True

instance (world : VecWorld Var T) (call : VecCall Var T) :
    Decidable (call.Conserves type ReserveSize world) :=
  match call with
  | .constructVec _ _ => inferInstanceAs (Decidable (_ < _))
  | .constructVecData _ _ => inferInstanceAs (Decidable (_ = _))
  | .copyAssign _ _ => inferInstanceAs (Decidable (_ → _))
  | .setCopy _ _ _ => inferInstanceAs (Decidable (_ ∧ _ ∧ _))
  | .setMove _ _ => inferInstanceAs (Decidable (_ = _))
  | .operate _ operation => inferInstanceAs (Decidable (operation.GrowsWell ..))
  | .constructFixed _ _ | .constructFixedSize _ _ _ | .constructFixedData _ _ _
  | .copyConstruct _ _ | .moveConstruct _ _ | .moveAssign _ _ | .destruct _ =>
    inferInstanceAs (Decidable True)

/-- One call. -/
theorem buffers_of_step {world after : VecWorld Var T} {call : VecCall Var T}
    (buffers : world.Buffers type) (conserves : call.Conserves type ReserveSize world)
    (stepped : call.step type grants ReserveSize world = some after) : after.Buffers type := by
  unfold step at stepped
  split_ifs at stepped with allowed
  cases call with
  | constructFixed var Capacity =>
    cases stepped
    exact buffers.constructFixed allowed Capacity
  | constructFixedSize var Capacity numElements =>
    obtain ⟨result, ran, rfl⟩ := Option.map_eq_some_iff.mp stepped
    refine buffers.put_newFixed allowed (Vec.stays_resize (fun i bound => ?_) (Nat.zero_le _)
      (show Reference.Valid _ (.temporary default) from trivial) ran)
    exact buffers.valid_new bound
  | constructFixedData var Capacity data =>
    cases stepped
    exact buffers.constructData allowed.1 Capacity fun i bound => buffers.valid_span allowed.2 bound
  | constructVec var numElements =>
    obtain ⟨result, ran, rfl⟩ := Option.map_eq_some_iff.mp stepped
    obtain ⟨⟨data, memory⟩, allocated, rfl⟩ := Option.map_eq_some_iff.mp ran
    obtain ⟨rfl, rfl⟩ := Vec.allocate_eq conserves allocated
    refine buffers.put_extended (block_of_none allowed) ?_ rfl (le_max_left _ _) fun _ => conserves
    refine calm_construct fun i bound => ?_
    have := buffers.valid_new (lt_of_lt_of_le bound (le_max_left numElements ReserveSize))
    rwa [← Nat.zero_add i] at this
  | constructVecData var data =>
    have empty : data.size = 0 := conserves
    obtain ⟨result, ran, rfl⟩ := Option.map_eq_some_iff.mp stepped
    obtain ⟨⟨newData, memory⟩, allocated, rfl⟩ := Option.map_eq_some_iff.mp ran
    have size : (data.resolve world.vec).size = 0 := empty
    rw [size] at allocated ⊢
    have fits : max 0 0 * type.sizeOf < 2 ^ 64 := by simp
    obtain ⟨rfl, rfl⟩ := Vec.allocate_eq fits allocated
    exact buffers.put_extended (block_of_none allowed.1) (Calm.refl _) rfl (le_refl 0)
      fun _ => by simp
  | copyConstruct var other =>
    obtain ⟨vec, there⟩ := Option.ne_none_iff_exists'.mp allowed.2
    rw [run, vec_of_some there] at stepped
    have sized := buffers.sized other vec there
    split at stepped
    · rename_i heap
      obtain ⟨result, ran, rfl⟩ := Option.map_eq_some_iff.mp stepped
      obtain ⟨enough, fits⟩ := Vec.chosen_of_enough sized (buffers.fits other vec there heap)
      exact buffers.setCopy (block_of_none allowed.1) rfl
        (fun i bound => buffers.span_valid there bound) enough fits ran
    · cases stepped
      exact buffers.constructData allowed.1 vec.mCapacity fun i bound => buffers.span_valid there bound
  | moveConstruct var other =>
    obtain ⟨vec, there⟩ := Option.ne_none_iff_exists'.mp allowed.2
    rw [run, vec_of_some there] at stepped
    split at stepped
    · cases stepped
      rw [Vec.spanSetMove]
      dsimp only
      rw [Nat.zero_min]
      exact buffers.put_empty (block_of_none allowed.1)
    · cases stepped
      exact buffers.constructMoved allowed.1 there
  | copyAssign var other =>
    obtain ⟨vec, there⟩ := Option.ne_none_iff_exists'.mp allowed.1
    obtain ⟨vec', there'⟩ := Option.ne_none_iff_exists'.mp allowed.2.1
    have alike := allowed.2.2
    change (world.vec var).storage = .vec → _ at conserves
    rw [run] at stepped
    rw [vec_of_some there] at stepped conserves alike
    rw [vec_of_some there'] at stepped alike
    have sized := buffers.sized other vec' there'
    split at stepped
    · rename_i heap
      obtain ⟨result, ran, rfl⟩ := Option.map_eq_some_iff.mp stepped
      obtain ⟨-, -, empty⟩ := buffers.empty_of_unowned there (conserves heap)
      obtain ⟨enough, fits⟩ := Vec.chosen_of_enough sized
        (buffers.fits other vec' there' (alike.1.symm.trans heap))
      exact buffers.setCopy (conserves heap) empty
        (fun i bound => buffers.span_valid there' bound) enough fits ran
    · cases stepped
      exact buffers.put_stays there (Vec.stays_fixedSetCopy (fun i bound => buffers.valid there bound)
        fun i bound => buffers.span_valid there' bound)
  | moveAssign var other =>
    obtain ⟨vec, there⟩ := Option.ne_none_iff_exists'.mp allowed.1
    obtain ⟨vec', there'⟩ := Option.ne_none_iff_exists'.mp allowed.2.1
    rw [run, vec_of_some there, vec_of_some there'] at stepped
    have source (i : ℕ) (bound : i < vec'.mSize) : world.memory.Valid (vec'.element i) :=
      buffers.valid there' (lt_of_lt_of_le bound (buffers.sized other vec' there'))
    split at stepped
    · cases stepped
      exact buffers.put_stays there (Vec.stays_spanSetMove (fun i bound => buffers.valid there bound)
        (buffers.sized var vec there) source)
    · cases stepped
      exact buffers.put_stays there (Vec.stays_fixedSetMove (fun i bound => buffers.valid there bound)
        source)
  | setCopy var data capacity =>
    obtain ⟨vec, there⟩ := Option.ne_none_iff_exists'.mp allowed.1
    obtain ⟨result, ran, rfl⟩ := Option.map_eq_some_iff.mp stepped
    obtain ⟨unowned, enough, fits⟩ := conserves
    rw [vec_of_some there] at ran
    obtain ⟨-, -, empty⟩ := buffers.empty_of_unowned there unowned
    exact buffers.setCopy unowned empty (fun i bound => buffers.valid_span allowed.2.2 bound) enough
      fits ran
  | setMove var other =>
    obtain ⟨present, present', heap, heap'⟩ := allowed
    obtain ⟨vec, there⟩ := Option.ne_none_iff_exists'.mp present
    obtain ⟨vec', there'⟩ := Option.ne_none_iff_exists'.mp present'
    rw [vec_of_some there] at heap
    rw [vec_of_some there'] at heap'
    cases stepped
    exact buffers.setMove there there' conserves heap heap'
  | operate var operation =>
    obtain ⟨vec, there⟩ := Option.ne_none_iff_exists'.mp allowed.1
    obtain ⟨result, ran, rfl⟩ := Option.map_eq_some_iff.mp stepped
    have well : operation.GrowsWell type (world.vec var) var := conserves
    rw [vec_of_some there] at ran well
    exact buffers.operate there allowed.2 well ran
  | destruct var =>
    obtain ⟨vec, there⟩ := Option.ne_none_iff_exists'.mp allowed
    cases stepped
    exact buffers.release there

omit [DecidableEq Var] [Inhabited T] in
theorem buffers_empty (type : ObjectType T) : ({} : VecWorld Var T).Buffers type where
  sized _ _ there := by cases there
  allocated _ _ there := by cases there
  fits _ _ there := by cases there
  owned _ bound real := absurd (Nat.lt_one_iff.mp bound) real
  stored _ _ there := by cases there
  null := rfl
  kept := rfl
  beyond _ _ := rfl
  used := rfl

/-- In every state that a program reaches whose calls conserve blocks, no block is lost or used
after it was freed; once there are no vectors any more, every block has been freed exactly once. -/
theorem buffers_of_run {path : List (VecCall Var T)} {final : VecWorld Var T}
    (conserves : RunMeets (step type grants ReserveSize)
      (fun world call => call.Conserves type ReserveSize world) {} path)
    (ran : Machine.run (step type grants ReserveSize) {} path = some final) :
    final.Buffers type ∧ ((∀ var, final.objects var = none) →
      ∀ block < final.memory.blocks.length, block ≠ 0 → final.memory.freed.count block = 1) := by
  have buffers : final.Buffers type := run_invariant (fun _ _ _ => buffers_of_step)
    (buffers_empty type) conserves ran
  refine ⟨buffers, fun gone block bound real => ?_⟩
  obtain ⟨-, owner, own, -⟩ | ⟨count, -⟩ := buffers.owned block bound real
  · rw [block_of_none (gone owner)] at own
    exact absurd own.symm real
  · exact count

/-- Handles, which are zero after a move and have a destructor. -/
def handle : ObjectType ℕ where
  trivial := false
  moved _ := 0
  sizeOf := 8
  moved_of_trivial impossible := by cases impossible
  sizeOf_pos := by decide

/-- Vectors that are copied, moved and grown, and then destructed. -/
def vectorsPath : List (VecCall ℕ ℕ) :=
  [.constructVec 0 2, .operate 0 (.add (.value 3) false), .copyConstruct 1 0, .moveConstruct 2 1,
    .copyAssign 2 0, .moveAssign 1 1, .moveConstruct 3 0, .setMove 3 1, .copyAssign 1 3,
    .operate 1 (.reserve 9), .operate 1 (.insert (.element 3 0) false 1), .destruct 0, .destruct 1,
    .destruct 2, .destruct 3]

/-- The state after that program. -/
def vectorsFinal : VecWorld ℕ ℕ :=
  (Machine.run (step handle (fun _ _ => true) 0) {} vectorsPath).getD {}

theorem buffers_of_run_vectors : vectorsFinal.Buffers handle ∧
    ((∀ var, vectorsFinal.objects var = none) → ∀ block < vectorsFinal.memory.blocks.length,
      block ≠ 0 → vectorsFinal.memory.freed.count block = 1) := by
  have ran : Machine.run (step handle (fun _ _ => true) 0) {} vectorsPath = some vectorsFinal := rfl
  exact buffers_of_run (by decide) ran

/-- A vector that is made from data does not have the capacity for it. -/
theorem constructVecData_not_buffers : ¬ ∀ (path : List (VecCall ℕ ℕ)) (final : VecWorld ℕ ℕ),
    Machine.run (step handle (fun _ _ => true) 0) {} path = some final → final.Buffers handle := by
  intro always
  have buffers := always [.constructVecData 0 (.values [1])] _ rfl
  have sized : 1 ≤ 0 := buffers.sized 0 _ rfl
  omega

end VecCall

end Hakkun.Container
