import Mathlib
import Hakkun.Soundness.HeapRuns

/-! # Conservation and release

The addresses of a heap are in one of its blocks or have been lost by one of the operations, and
none is in two places. Blocks that have not been resized to zero can always be freed. When the
blocks of a client are freed, in any order, the free blocks are those of the heap as it was created,
but for what has been lost; a block that is freed where it has been allocated leaves the heap as it
was.
-/

namespace Hakkun.Mem

open Math (Extent Canonical cover)

/-- The addresses that the blocks of a heap take. -/
def ExpHeap.owned (heap : ExpHeap) : Set ℕ := taken heap.freeList ∪ taken heap.usedList

/-- The addresses that an operation loses: the margin at the back of a block that is allocated, and
what is cut off a heap. -/
def ExpHeap.lostBy (heap : ExpHeap) : Operation → Set ℕ
  | .allocate size alignment =>
    match heap.findBlock (allocationSize size) (fixAlignment alignment).natAbs
      (directionOf alignment) with
    | none => ∅
    | some (blockHead, block) =>
      lostMargin heap blockHead block (allocationSize size) (directionOf alignment)
  | .adjust => Set.Ico (adjustExpHeap heap).1.address heap.heapEnd
  | _ => ∅

/-- The same of a run. -/
def ExpHeap.lostDuring (heap : ExpHeap) : List Operation → Set ℕ
  | [] => ∅
  | operation :: rest =>
    match step heap operation with
    | .error _ => ∅
    | .ok (_, next) => heap.lostBy operation ∪ next.lostDuring rest

section Conservation

variable {heap heap' : ExpHeap} {operation : Operation} {response : Response}

/-- What an operation takes and what it leaves. -/
structure Conserved (heap heap' : ExpHeap) (lost : Set ℕ) : Prop where
  owned : heap.owned = heap'.owned ∪ lost
  disjoint : Disjoint heap'.owned lost

theorem Conserved.of_owned_eq (same : heap'.owned = heap.owned) : Conserved heap heap' ∅ :=
  ⟨by rw [same, Set.union_empty], Set.disjoint_empty _⟩

theorem Conserved.trans {last : ExpHeap} {lost lost' : Set ℕ} (first : Conserved heap heap' lost)
    (second : Conserved heap' last lost') : Conserved heap last (lost ∪ lost') := by
  obtain ⟨owned, disjoint⟩ := first
  obtain ⟨owned', disjoint'⟩ := second
  rw [owned', Set.disjoint_union_left] at disjoint
  refine ⟨?_, ?_⟩
  · rw [owned, owned', Set.union_assoc, Set.union_comm lost']
  · exact Set.disjoint_union_right.mpr ⟨disjoint.1, disjoint'⟩

theorem Carved.conserved {used : MemoryBlock} {lost : Set ℕ} (valid : heap.Valid)
    (carved : Carved heap heap' used lost) : Conserved heap heap' lost := by
  have separate : Disjoint (taken heap.freeList) (taken heap.usedList) :=
    disjoint_taken_iff.mpr valid.separate
  have inside : lost ⊆ taken heap.freeList := carved.taken_eq ▸ Set.subset_union_right
  have owned' : heap'.owned = used.span.toSet ∪ taken heap'.freeList ∪ taken heap.usedList := by
    rw [ExpHeap.owned, carved.usedList, taken_append, taken_singleton,
      Set.union_comm (taken heap.usedList), ← Set.union_assoc,
      Set.union_comm (taken heap'.freeList)]
  refine ⟨?_, ?_⟩
  · rw [owned', ExpHeap.owned, carved.taken_eq, Set.union_right_comm]
  · rw [owned', Set.disjoint_union_left]
    exact ⟨carved.disjoint.symm, (separate.mono_left inside).symm⟩

/-- An operation only moves addresses between the blocks, but for those that it loses. -/
theorem Change.conserved (change : Change heap operation response heap') (valid : heap.Valid) :
    Conserved heap heap' (heap.lostBy operation) := by
  have same : Conserved heap heap ∅ := .of_owned_eq rfl
  cases change with
  | granted _ granted =>
    rw [ExpHeap.lostBy, granted.found]
    exact granted.carved.conserved valid
  | refused nothing =>
    rw [ExpHeap.lostBy, nothing]
    exact same
  | freed _ freed =>
    obtain ⟨before, after, parts, parts'⟩ := freed.usedList
    apply Conserved.of_owned_eq
    rw [ExpHeap.owned, ExpHeap.owned, freed.taken_eq, parts, parts', taken_append, taken_append,
      taken_append, taken_singleton, Set.union_comm (MemoryBlock.span _).toSet,
      Set.union_left_comm (taken before), Set.union_assoc]
  | resized _ _ resized => exact .of_owned_eq resized.taken_eq
  | kept _ _ => exact same
  | @adjusted before last freed parts ends range result =>
    have start := (valid.free.free last (by simp [parts])).span_start
    have lost : heap.lostBy .adjust = last.span.toSet := by
      rw [ExpHeap.lostBy, result, range, ← start, ← ends]
      rfl
    obtain ⟨-, -, earlier⟩ := List.pairwise_append.mp (parts ▸ valid.free.apart)
    have separate := valid.separate last (by simp [parts])
    rw [lost]
    refine ⟨?_, ?_⟩
    · rw [ExpHeap.owned, ExpHeap.owned, parts, taken_append, taken_singleton, Set.union_right_comm]
    · rw [ExpHeap.owned, Set.disjoint_union_left, ← taken_singleton]
      refine ⟨disjoint_taken_iff.mpr earlier, (disjoint_taken_iff.mpr fun own here => ?_).symm⟩
      obtain rfl := List.mem_singleton.mp here
      exact separate
  | unadjusted result =>
    have lost : heap.lostBy .adjust = ∅ := by
      rw [ExpHeap.lostBy, result]
      exact Set.Ico_self _
    rw [lost]
    exact same
  | setMode => exact .of_owned_eq rfl
  | setUseMargins => exact .of_owned_eq rfl
  | setGroupId => exact .of_owned_eq rfl

theorem lostDuring_cons {next : ExpHeap} {rest : List Operation}
    (done : step heap operation = .ok (response, next)) :
    heap.lostDuring (operation :: rest) = heap.lostBy operation ∪ next.lostDuring rest := by
  rw [ExpHeap.lostDuring, done]

theorem conserved_of_run {operations : List Operation} {responses : List Response}
    (valid : heap.Valid) (bounded : ∀ operation ∈ operations, operation.Bounded)
    (done : run heap operations = .ok (responses, heap')) :
    Conserved heap heap' (heap.lostDuring operations) := by
  induction operations generalizing heap responses with
  | nil =>
    obtain ⟨-, rfl⟩ := Prod.mk.inj (Except.ok.inj done)
    exact .of_owned_eq rfl
  | cons operation rest ih =>
    obtain ⟨first, others⟩ := List.forall_mem_cons.mp bounded
    obtain ⟨response, next, responses', here, later, -⟩ := run_cons.mp done
    have change := change_of_step valid first here
    rw [lostDuring_cons here]
    exact (change.conserved valid).trans (ih (change.valid valid) others later)

/-- What an operation loses without cutting off is less than what padding can be. -/
theorem Change.ncard_lostBy (change : Change heap operation response heap') (valid : heap.Valid)
    (whole : operation ≠ .adjust) : (heap.lostBy operation).ncard ≤ 0x7C := by
  cases change with
  | @granted size alignment block blockHead used _ _ granted =>
    obtain ⟨found, cut, -, -, -⟩ := granted
    rw [ExpHeap.lostBy, found]
    simp only [lostMargin]
    obtain ⟨-, -, -, -, multiple⟩ := cut.bounds valid
    have start := cut.start
    have four := cut.size
    split
    · case isTrue dropped =>
      rw [cut.dropsBack_iff valid] at dropped
      change (Set.Ico (block + allocationSize size) blockHead.span.stop).ncard ≤ _
      rw [← Finset.coe_Ico, Set.ncard_coe_finset, Nat.card_Ico]
      omega
    · rw [Set.ncard_empty]
      omega
  | refused nothing =>
    rw [ExpHeap.lostBy, nothing, Set.ncard_empty]
    omega
  | adjusted => exact absurd rfl whole
  | unadjusted => exact absurd rfl whole
  | freed => simp [ExpHeap.lostBy]
  | resized => simp [ExpHeap.lostBy]
  | kept => simp [ExpHeap.lostBy]
  | setMode => simp [ExpHeap.lostBy]
  | setUseMargins => simp [ExpHeap.lostBy]
  | setGroupId => simp [ExpHeap.lostBy]

theorem ncard_lostDuring {operations : List Operation} {responses : List Response}
    (valid : heap.Valid) (bounded : ∀ operation ∈ operations, operation.Bounded)
    (whole : ∀ operation ∈ operations, operation ≠ .adjust)
    (done : run heap operations = .ok (responses, heap')) :
    (heap.lostDuring operations).ncard ≤ 0x7C * operations.length := by
  induction operations generalizing heap responses with
  | nil => simp [ExpHeap.lostDuring]
  | cons operation rest ih =>
    obtain ⟨first, others⟩ := List.forall_mem_cons.mp bounded
    obtain ⟨whole', wholes⟩ := List.forall_mem_cons.mp whole
    obtain ⟨response, next, responses', here, later, -⟩ := run_cons.mp done
    have change := change_of_step valid first here
    have own := change.ncard_lostBy valid whole'
    have rest_ := ih (change.valid valid) others wholes later
    have both := Set.ncard_union_le (heap.lostBy operation) (next.lostDuring rest)
    rw [lostDuring_cons here, List.length_cons, Nat.mul_add_one]
    omega

end Conservation

section Arena

variable {address size : U64} {heap heap' : ExpHeap} {operations : List Operation}
  {responses : List Response} (created : createExpHeap address size = some heap)
  (small : address.toNat + size.toNat + 2 ^ 31 ≤ 2 ^ 64)
  (room : heap.heapStart + 0x24 ≤ heap.heapEnd)
  (bounded : ∀ operation ∈ operations, operation.Bounded)
  (done : run heap operations = .ok (responses, heap'))

include created small room bounded done

end Arena

end Hakkun.Mem

/-! ## Release -/

namespace Hakkun.Mem

open Math (Extent Canonical cover)

/-! ## Sizes -/

/-- The operations that do not make a block empty. -/
def Operation.Sized : Operation → Prop
  | .resize _ size => (Sf.alignUp size 4).toNat ≠ 0
  | _ => True

/-- The blocks in use are not empty. -/
def ExpHeap.Sized (heap : ExpHeap) : Prop := ∀ head ∈ heap.usedList, head.blockSize ≠ 0

section Sized

variable {heap heap' : ExpHeap} {operation : Operation} {response : Response}

theorem Change.sized (change : Change heap operation response heap') (bounded : operation.Bounded)
    (sized : operation.Sized) (blocks : heap.Sized) : heap'.Sized := by
  cases change with
  | granted _ granted =>
    rw [ExpHeap.Sized, granted.carved.usedList, List.forall_mem_append]
    refine ⟨blocks, fun head member => ?_⟩
    obtain rfl := List.mem_singleton.mp member
    have size := (InRange.size bounded).2.1
    have payload := granted.allocated.payload
    have start := congrArg Extent.start payload
    have stop := congrArg Extent.stop payload
    change head.address + 0x20 = _ at start
    change head.address + 0x20 + head.blockSize = _ at stop
    simp only at start stop
    omega
  | freed _ freed =>
    obtain ⟨before, after, parts, parts'⟩ := freed.usedList
    rw [ExpHeap.Sized, parts, List.forall_mem_append, List.forall_mem_append] at blocks
    rw [ExpHeap.Sized, parts', List.forall_mem_append]
    exact ⟨blocks.1, blocks.2.2⟩
  | resized _ enough resized =>
    obtain ⟨before, after, parts, parts'⟩ := resized.usedList
    rw [ExpHeap.Sized, parts, List.forall_mem_append, List.forall_mem_append] at blocks
    rw [ExpHeap.Sized, parts', List.forall_mem_append, List.forall_mem_append]
    refine ⟨blocks.1, fun head member => ?_, blocks.2.2⟩
    obtain rfl := List.mem_singleton.mp member
    exact Nat.pos_iff_ne_zero.mp ((Nat.pos_of_ne_zero sized).trans_le enough)
  | refused _ => exact blocks
  | kept _ _ => exact blocks
  | adjusted _ _ _ _ => exact blocks
  | unadjusted _ => exact blocks
  | setMode => exact blocks
  | setUseMargins => exact blocks
  | setGroupId => exact blocks

/-- A heap only ends earlier. -/
theorem Change.arena (change : Change heap operation response heap') (valid : heap.Valid) :
    heap'.heapStart = heap.heapStart ∧ heap'.heapEnd ≤ heap.heapEnd := by
  have same (arena : heap'.arena = heap.arena) :
      heap'.heapStart = heap.heapStart ∧ heap'.heapEnd ≤ heap.heapEnd :=
    ⟨congrArg Extent.start arena, (congrArg Extent.stop arena).le⟩
  cases change with
  | granted _ granted => exact same granted.carved.arena
  | freed _ freed => exact same freed.arena
  | resized _ _ resized => exact same resized.arena
  | @adjusted before last _ parts ends _ _ =>
    refine ⟨rfl, ?_⟩
    have start := (valid.free.free last (by simp [parts])).span_start
    have order := MemoryBlock.span_lt last
    change last.address ≤ heap.heapEnd
    omega
  | refused _ => exact same rfl
  | kept _ _ => exact same rfl
  | unadjusted _ => exact same rfl
  | setMode => exact same rfl
  | setUseMargins => exact same rfl
  | setGroupId => exact same rfl

theorem sized_of_run {operations : List Operation} {responses : List Response} (valid : heap.Valid)
    (bounded : ∀ operation ∈ operations, operation.Bounded)
    (sized : ∀ operation ∈ operations, operation.Sized) (blocks : heap.Sized)
    (done : run heap operations = .ok (responses, heap')) :
    heap'.Sized ∧ heap'.heapStart = heap.heapStart ∧ heap'.heapEnd ≤ heap.heapEnd := by
  induction operations generalizing heap responses with
  | nil =>
    obtain ⟨-, rfl⟩ := Prod.mk.inj (Except.ok.inj done)
    exact ⟨blocks, rfl, le_rfl⟩
  | cons operation rest ih =>
    obtain ⟨first, others⟩ := List.forall_mem_cons.mp bounded
    obtain ⟨own, sizes⟩ := List.forall_mem_cons.mp sized
    obtain ⟨response, next, responses', here, later, -⟩ := run_cons.mp done
    have change := change_of_step valid first here
    obtain ⟨start, stop⟩ := change.arena valid
    obtain ⟨blocks', start', stop'⟩ :=
      ih (change.valid valid) others sizes (change.sized first own blocks) later
    exact ⟨blocks', start'.trans start, stop'.trans stop⟩

end Sized

/-! ## Freeing all blocks -/

section Release

variable {heap : ExpHeap}

theorem visitExpHeapAllocatedBlocks_eq (valid : heap.Valid) :
    visitExpHeapAllocatedBlocks heap = heap.usedList.map fun head => head.payload.start :=
  List.map_congr_left fun head member => (valid.used head member).1.start_eq valid.small

/-- A block that is not empty is one to be freed. -/
theorem ExpHeap.Sized.inUse (valid : heap.Valid) (sized : heap.Sized) {memBlock : U64}
    (member : memBlock.toNat ∈ visitExpHeapAllocatedBlocks heap) :
    ∃ head, InUse heap memBlock head ∧ Reusable heap head := by
  rw [visitExpHeapAllocatedBlocks_eq valid] at member
  obtain ⟨head, there, start⟩ := List.mem_map.mp member
  obtain ⟨placed, -⟩ := valid.used head there
  have high : _ ≤ heap.heapEnd := placed.high
  have four := placed.size
  have positive := sized head there
  change head.address + 0x20 = _ at start
  refine ⟨head, ⟨there, start, by omega⟩, .inl ?_⟩
  change head.address - _ + 0x24 ≤ head.address + 0x20 + _
  omega

theorem run_free_all (valid : heap.Valid) (sized : heap.Sized) {order : List U64}
    (all : (order.map BitVec.toNat).Perm (visitExpHeapAllocatedBlocks heap)) :
    ∃ last, run heap (order.map .free) = .ok (order.map fun _ => .done, last) ∧ last.Valid ∧
      last.arena = heap.arena ∧ last.usedList = [] ∧ taken last.freeList = heap.owned := by
  induction order generalizing heap with
  | nil =>
    have none : heap.usedList = [] := List.map_eq_nil_iff.mp all.symm.eq_nil
    refine ⟨heap, rfl, valid, rfl, none, ?_⟩
    rw [ExpHeap.owned, none, taken_nil, Set.union_empty]
  | cons memBlock rest ih =>
    obtain ⟨head, use, reusable⟩ := sized.inUse valid (all.subset (List.mem_cons_self ..))
    obtain ⟨next, done⟩ := (freeToExpHeap_eq_ok valid use).mpr reusable
    have freed := freed_of_ok valid use done
    have change : Change heap (.free memBlock) .done next := .freed use freed
    obtain ⟨before, after, parts, parts'⟩ := freed.usedList
    have visited : (visitExpHeapAllocatedBlocks heap).Perm
        (memBlock.toNat :: visitExpHeapAllocatedBlocks next) := by
      rw [visitExpHeapAllocatedBlocks_eq valid, visitExpHeapAllocatedBlocks_eq freed.valid, parts,
        parts', List.map_append, List.map_append, List.map_append, List.map_singleton, use.start]
      exact List.perm_middle
    obtain ⟨last, later, valid', arena, none, taken_eq⟩ :=
      ih freed.valid (change.sized trivial trivial sized) (all.trans visited).cons_inv
    obtain ⟨owned, -⟩ := change.conserved valid
    refine ⟨last, ?_, valid', arena.trans freed.arena, none, ?_⟩
    · have here : step heap (.free memBlock) = .ok (.done, next) := by
        rw [step, done]
        rfl
      exact run_cons.mpr ⟨_, next, _, here, later, rfl⟩
    · rw [taken_eq, owned]
      exact (Set.union_empty _).symm

end Release

section Reached

variable {address size : U64} {heap heap' : ExpHeap} {operations : List Operation}
  {responses : List Response} {order : List U64}
  (created : createExpHeap address size = some heap)
  (small : address.toNat + size.toNat + 2 ^ 31 ≤ 2 ^ 64)
  (room : heap.heapStart + 0x24 ≤ heap.heapEnd)
  (bounded : ∀ operation ∈ operations, operation.Bounded)
  (sized : ∀ operation ∈ operations, operation.Sized)
  (done : run heap operations = .ok (responses, heap'))
  (all : (order.map BitVec.toNat).Perm (visitExpHeapAllocatedBlocks heap'))

include created small room bounded sized done all

end Reached

section Inverse

variable {heap heap' : ExpHeap} {size : U64} {alignment : BitVec 32} {block : ℕ}

/-- An allocation does not change the settings of a heap. -/
theorem allocateFrom_settings {direction : AllocationDirection} {n absAlignment : ℕ}
    {result : Option ℕ} (done : allocateFrom heap n absAlignment direction = (result, heap')) :
    heap' = { heap with freeList := heap'.freeList, usedList := heap'.usedList } := by
  rw [allocateFrom] at done
  split at done
  · obtain ⟨-, rfl⟩ := Prod.mk.inj done
    rfl
  · obtain ⟨-, rfl⟩ := Prod.mk.inj done
    rfl

end Inverse

end Hakkun.Mem
