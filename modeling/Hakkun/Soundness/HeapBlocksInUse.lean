import Hakkun.Soundness.HeapAllocation

/-! # Blocks in use

A block that is given by its address is one in use, unless it is not known what is read as its head.
It is freed together with its padding, and its size changes within itself and the free block after
it. Freeing is aborted only where nothing can be made of the block: it has been resized to zero.
-/

namespace Hakkun.Mem

open Math (Extent Canonical cover)

variable {heap heap' : ExpHeap} {head : MemoryBlock} {memBlock : U64}

/-! ## Lookup -/

theorem ExpHeap.Valid.all_apart (valid : heap.Valid) :
    (heap.usedList ++ heap.freeList).Pairwise fun head other => head.span.Apart other.span :=
  List.pairwise_append.mpr ⟨valid.apart, valid.free.apart, fun other there head member =>
    (valid.separate head member other there).symm⟩

/-- The blocks that can be given to an operation. -/
structure InUse (heap : ExpHeap) (memBlock : U64) (head : MemoryBlock) : Prop where
  member : head ∈ heap.usedList
  start : head.payload.start = memBlock.toNat
  inside : memBlock.toNat < heap.heapEnd

theorem InUse.bounds (valid : heap.Valid) (use : InUse heap memBlock head) :
    heap.heapStart + 0x20 ≤ memBlock.toNat ∧ head.address + 0x20 = memBlock.toNat ∧
      memBlock.toNat + head.blockSize ≤ heap.heapEnd ∧ 4 ∣ memBlock.toNat ∧ 4 ∣ head.blockSize := by
  obtain ⟨placed, -⟩ := valid.used head use.member
  have low : heap.heapStart + _ ≤ _ := placed.low
  have high : _ ≤ heap.heapEnd := placed.high
  have address := placed.address
  have start : head.address + 0x20 = _ := use.start
  exact ⟨by lia, start, by lia, by lia, placed.size⟩

theorem usedMemoryBlock_eq_ok (valid : heap.Valid) :
    usedMemoryBlock heap memBlock = .ok head ↔ InUse heap memBlock head := by
  have limit := valid.limit
  constructor
  · intro found
    rw [usedMemoryBlock] at found
    split at found
    · cases found
    · case isFalse inside =>
      split at found
      · cases found
      · case h_2 other there =>
        split at found
        · cases found
        · case isFalse magic =>
          split at found
          · cases found
          · obtain rfl := Except.ok.inj found
            have key : other.address = getHeadForMemoryBlock memBlock.toNat := by
              simpa using List.find?_some there
            have member : other ∈ heap.usedList :=
              (List.mem_append.mp (List.mem_of_find?_eq_some there)).resolve_right fun free => by
                rw [(valid.free.free other free).magic] at magic
                exact magic (by decide)
            have high : _ ≤ heap.heapEnd := (valid.used other member).1.high
            refine ⟨member, ?_, by lia⟩
            change other.address + 0x20 = _
            rw [getHeadForMemoryBlock, getPointerDifference, wrap, sizeofBlockHead] at key
            lia
  · intro use
    obtain ⟨low, start, high, -, -⟩ := use.bounds valid
    have inside := use.inside
    have key : getHeadForMemoryBlock memBlock.toNat = head.address := by
      rw [getHeadForMemoryBlock, sizeofBlockHead, getPointerDifference_of_le (by lia) (by lia)]
      lia
    have there := find?_address (List.mem_append_left heap.freeList use.member)
      fun other listed same =>
        eq_of_address_eq valid.all_apart (List.mem_append_left _ use.member) listed same
    simp only [usedMemoryBlock, key, there]
    rw [if_neg (by lia), if_neg (not_not.mpr (valid.used head use.member).2),
      wrap_of_lt (by lia), if_neg (by lia)]

/-- The block is the only one at its address. -/
theorem InUse.split (valid : heap.Valid) (use : InUse heap memBlock head) : ∃ before after,
    heap.usedList = before ++ ([head] ++ after) ∧
      ∀ other ∈ before ++ after, other.address ≠ head.address := by
  obtain ⟨before, after, parts⟩ := List.append_of_mem use.member
  refine ⟨before, after, parts, fun other member => ?_⟩
  have apart := valid.apart
  rw [parts] at apart
  obtain ⟨-, later, earlier⟩ := List.pairwise_append.mp apart
  rcases List.mem_append.mp member with there | there
  · exact address_ne (earlier other there head (List.mem_cons_self ..))
  · exact (address_ne ((List.pairwise_cons.mp later).1 other there)).symm

section Split

variable {before after : List MemoryBlock}
  (others : ∀ other ∈ before ++ after, other.address ≠ head.address)

include others

theorem eraseP_split :
    (before ++ ([head] ++ after)).eraseP (·.address = head.address) = before ++ after := by
  rw [List.eraseP_append_right]
  · simp
  · intro other member
    simpa using others other (List.mem_append_left _ member)

theorem setBlockSize_split (blockSize : ℕ) :
    setBlockSize head.address blockSize (before ++ ([head] ++ after)) =
      before ++ ([{ head with blockSize }] ++ after) := by
  have kept {blocks : List MemoryBlock} (all : ∀ other ∈ blocks, other.address ≠ head.address) :
      setBlockSize head.address blockSize blocks = blocks := by
    rw [setBlockSize]
    exact (List.map_congr_left fun other member => if_neg (all other member)).trans (List.map_id' _)
  obtain ⟨left, right⟩ := List.forall_mem_append.mp others
  have own : setBlockSize head.address blockSize [head] = [{ head with blockSize }] := by
    rw [setBlockSize, List.map_singleton, if_pos rfl]
  rw [setBlockSize, List.map_append, List.map_append]
  change setBlockSize _ _ before ++ (setBlockSize _ _ [head] ++ setBlockSize _ _ after) = _
  rw [kept left, own, kept right]

end Split

/-! ## Freeing -/

/-- What is left of a heap when a block is freed. -/
structure Freed (heap heap' : ExpHeap) (head : MemoryBlock) : Prop where
  valid : heap'.Valid
  arena : heap'.arena = heap.arena
  usedList : ∃ before after, heap.usedList = before ++ ([head] ++ after) ∧
    heap'.usedList = before ++ after
  taken_eq : taken heap'.freeList = head.span.toSet ∪ taken heap.freeList

/-- Whether something can be made of the addresses of a block. -/
def Reusable (heap : ExpHeap) (head : MemoryBlock) : Prop :=
  head.span.start + 0x24 ≤ head.span.stop ∨
    ∃ free ∈ heap.freeList, free.span.stop = head.span.start ∨ free.span.start = head.span.stop

theorem InUse.coalesced (valid : heap.Valid) (use : InUse heap memBlock head) :
    Coalesced heap.arena heap.freeList head.span
      (coalesceFreedRegion heap.freeList head.region) := by
  obtain ⟨placed, -⟩ := valid.used head use.member
  have address := placed.address
  have size := placed.size
  have padding := placed.padding
  have low := placed.low
  rw [placed.region_eq valid.small]
  apply coalesceFreedRegion_spec valid.free valid.small _ _ placed.le_start placed.high
    (MemoryBlock.span_lt head) fun free member => valid.separate free member head use.member
  · change 4 ∣ head.address - head.alignmentPadding
    lia
  · change 4 ∣ head.address + 0x20 + head.blockSize
    lia

theorem freeToExpHeap_of_inUse (valid : heap.Valid) (use : InUse heap memBlock head) :
    freeToExpHeap heap memBlock =
      if (coalesceFreedRegion heap.freeList head.region).1 then
        .ok { heap with
          freeList := (coalesceFreedRegion heap.freeList head.region).2
          usedList := heap.usedList.eraseP (·.address = head.address) }
      else .error (.assertion "coalesced") := by
  rw [freeToExpHeap, (usedMemoryBlock_eq_ok valid).mpr use]
  rfl

theorem InUse.unique (valid : heap.Valid) {other : MemoryBlock} (use : InUse heap memBlock head)
    (use' : InUse heap memBlock other) : other = head :=
  Except.ok.inj (((usedMemoryBlock_eq_ok valid).mpr use').symm.trans
    ((usedMemoryBlock_eq_ok valid).mpr use))

theorem exists_inUse (valid : heap.Valid) {β : Type} {next : MemoryBlock → Except Failure β}
    {result : β} (done : usedMemoryBlock heap memBlock >>= next = .ok result) :
    ∃ head, InUse heap memBlock head := by
  cases found : usedMemoryBlock heap memBlock with
  | error failure =>
    rw [found] at done
    cases done
  | ok head => exact ⟨head, (usedMemoryBlock_eq_ok valid).mp found⟩

/-- Freeing ends for the blocks in use that something can be made of. -/
theorem freeToExpHeap_eq_ok (valid : heap.Valid) (use : InUse heap memBlock head) :
    (∃ heap', freeToExpHeap heap memBlock = .ok heap') ↔ Reusable heap head := by
  rw [Reusable, ← (use.coalesced valid).merges_iff, freeToExpHeap_of_inUse valid use]
  split
  · case isTrue merged => exact iff_of_true ⟨_, rfl⟩ merged
  · case isFalse refused =>
    refine iff_of_false ?_ refused
    rintro ⟨heap', done⟩
    cases done

theorem freed_of_ok (valid : heap.Valid) (use : InUse heap memBlock head)
    (done : freeToExpHeap heap memBlock = .ok heap') : Freed heap heap' head := by
  have merged : (coalesceFreedRegion heap.freeList head.region).1 = true :=
    (use.coalesced valid).merges_iff.mpr ((freeToExpHeap_eq_ok valid use).mp ⟨heap', done⟩)
  obtain ⟨tidy, taken_eq⟩ := (use.coalesced valid).merged merged
  rw [freeToExpHeap_of_inUse valid use, if_pos merged] at done
  obtain rfl := Except.ok.inj done
  obtain ⟨before, after, parts, others⟩ := use.split valid
  have erased : heap.usedList.eraseP (·.address = head.address) = before ++ after := by
    rw [parts]
    exact eraseP_split others
  refine ⟨?_, rfl, ⟨before, after, parts, erased⟩, taken_eq⟩
  rw [erased]
  apply @ExpHeap.Valid.exchange heap valid before [head] [] after _ parts tidy (by simp) .nil
  · rw [taken_eq, taken_singleton, taken_nil, Set.union_empty, Set.union_comm]
  · rw [taken_nil]
    exact Set.disjoint_empty _

/-! ## Resizing -/

/-- What is left of a heap when the size of a block has changed. -/
structure Resized (heap heap' : ExpHeap) (head : MemoryBlock) (blockSize : ℕ) : Prop where
  valid : heap'.Valid
  arena : heap'.arena = heap.arena
  usedList : ∃ before after, heap.usedList = before ++ ([head] ++ after) ∧
    heap'.usedList = before ++ ([{ head with blockSize }] ++ after)
  taken_eq : taken heap'.freeList ∪ taken heap'.usedList = taken heap.freeList ∪ taken heap.usedList

/-- A block takes the addresses up to another end. -/
theorem resized_of_taken (valid : heap.Valid) (use : InUse heap memBlock head) {blockSize : ℕ}
    {freeList : List MemoryBlock} (multiple : 4 ∣ blockSize)
    (high : memBlock.toNat + blockSize ≤ heap.heapEnd) (tidy : FreeBlocks heap.arena freeList)
    (taken_eq : taken freeList ∪ ({ head with blockSize } : MemoryBlock).span.toSet =
      taken heap.freeList ∪ head.span.toSet)
    (disjoint : Disjoint (taken freeList) ({ head with blockSize } : MemoryBlock).span.toSet) :
    Resized heap { heap with
      freeList, usedList := setBlockSize head.address blockSize heap.usedList } head blockSize := by
  obtain ⟨before, after, parts, others⟩ := use.split valid
  obtain ⟨placed, magic⟩ := valid.used head use.member
  obtain ⟨-, start, -, -, -⟩ := use.bounds valid
  have changed : setBlockSize head.address blockSize heap.usedList =
      before ++ ([{ head with blockSize }] ++ after) := by
    rw [parts]
    exact setBlockSize_split others blockSize
  refine ⟨?_, rfl, ⟨before, after, parts, changed⟩, ?_⟩
  · rw [changed]
    apply @ExpHeap.Valid.exchange heap valid before [head] [{ head with blockSize }] after _ parts
      tidy
    · intro own member
      obtain rfl := List.mem_singleton.mp member
      exact ⟨⟨placed.low, by change head.address + 0x20 + blockSize ≤ heap.heapEnd; lia,
        placed.address, multiple, placed.padding⟩, magic⟩
    · exact List.pairwise_singleton ..
    · rw [taken_singleton, taken_singleton, taken_eq]
    · rwa [taken_singleton]
  · change taken freeList ∪ taken (setBlockSize _ _ _) = _
    rw [changed, parts, taken_append, taken_append, taken_append, taken_append, taken_singleton,
      taken_singleton, Set.union_left_comm, ← Set.union_assoc (taken freeList), taken_eq,
      Set.union_left_comm, Set.union_assoc]
    exact congrArg (taken heap.freeList ∪ ·) (Set.union_left_comm ..)

theorem InUse.span (valid : heap.Valid) (use : InUse heap memBlock head) :
    head.span.start < memBlock.toNat ∧ head.span.stop = memBlock.toNat + head.blockSize := by
  obtain ⟨-, start, -, -, -⟩ := use.bounds valid
  constructor
  · change head.address - _ < _
    lia
  · change head.address + 0x20 + _ = _
    lia

theorem InUse.free_disjoint (valid : heap.Valid) (use : InUse heap memBlock head) :
    Disjoint (taken heap.freeList) head.span.toSet := by
  rw [← taken_singleton, disjoint_taken_iff]
  intro free member other there
  obtain rfl := List.mem_singleton.mp there
  exact valid.separate free member other use.member

/-- A block takes the start of the free block after it, and the rest of that is kept. -/
theorem resized_into_next (valid : heap.Valid) (use : InUse heap memBlock head)
    {before after : List MemoryBlock} {next : MemoryBlock} {size : ℕ}
    (parts : heap.freeList = before ++ next :: after) (touching : next.span.start = head.span.stop)
    (multiple : 4 ∣ size) (larger : head.blockSize < size)
    (fits : memBlock.toNat + size ≤ next.span.stop) {kept : List MemoryRegion}
    (rest : kept = [] ∧ next.span.stop = memBlock.toNat + size ∨
      kept = [⟨memBlock.toNat + size, next.span.stop⟩] ∧
        memBlock.toNat + size + 0x24 ≤ next.span.stop) :
    Resized heap { heap with
      freeList := before ++ (kept.map initializeFreeMemoryBlock ++ after)
      usedList := setBlockSize head.address size heap.usedList } head size := by
  obtain ⟨low, start, -, four, four'⟩ := use.bounds valid
  obtain ⟨begins, stop⟩ := use.span valid
  have tidy := valid.free
  have usable := tidy.usable (parts ▸ by simp : next ∈ heap.freeList)
  have high : _ ≤ heap.heapEnd := usable.high
  have multiple' := usable.stop
  have limit := valid.limit
  rw [parts] at tidy
  have normal : Canonical kept := by
    rcases rest with ⟨rfl, -⟩ | ⟨rfl, room⟩
    · exact .nil
    · exact Math.Canonical.cons_iff.mpr ⟨by simp only; lia, by simp, .nil⟩
  obtain ⟨free, taken_eq, whole, outside⟩ := tidy.replace valid.small normal fun part member => by
    rcases rest with ⟨rfl, -⟩ | ⟨rfl, room⟩
    · cases member
    · obtain rfl := List.mem_singleton.mp member
      refine ⟨⟨?_, high, ?_, multiple', room⟩, ?_, le_rfl⟩
      · change heap.heapStart ≤ _
        simp only
        lia
      · simp only
        lia
      · simp only
        lia
  rw [← parts] at whole
  have span : ({ head with blockSize := size } : MemoryBlock).span =
      ⟨head.span.start, memBlock.toNat + size⟩ := by
    rw [← start]
    rfl
  have covers : cover kept ∪ Set.Ico head.span.start (memBlock.toNat + size) =
      next.span.toSet ∪ head.span.toSet := by
    ext a
    rcases rest with ⟨rfl, exact_⟩ | ⟨rfl, room⟩
    · simp only [Math.cover_nil, Set.empty_union, Set.mem_union, Set.mem_Ico, Extent.mem_toSet]
      lia
    · simp only [Math.cover_cons, Math.cover_nil, Set.union_empty, Set.mem_union, Set.mem_Ico,
        Extent.mem_toSet]
      lia
  have disjoint : Disjoint (cover kept) (Set.Ico head.span.start (memBlock.toNat + size)) := by
    rw [Set.disjoint_left]
    intro a
    rcases rest with ⟨rfl, exact_⟩ | ⟨rfl, room⟩
    · simp
    · simp only [Math.cover_cons, Math.cover_nil, Set.union_empty, Set.mem_Ico, Extent.mem_toSet]
      lia
  have apart : Disjoint (taken (before ++ after)) head.span.toSet :=
    (use.free_disjoint valid).mono_left (whole ▸ Set.subset_union_left)
  apply resized_of_taken valid use multiple (by lia) free
  · rw [span, taken_eq, whole, Set.union_assoc, Set.union_assoc]
    exact congrArg (taken (before ++ after) ∪ ·) covers
  · rw [span, taken_eq, Set.disjoint_union_left]
    refine ⟨Set.disjoint_of_subset_right (?_ : _ ⊆ next.span.toSet ∪ head.span.toSet) ?_, disjoint⟩
    · rw [← covers]
      exact Set.subset_union_right
    · exact Set.disjoint_union_right.mpr ⟨outside.symm, apart⟩

/-- A block grows into the free block after it, or nothing changes. -/
theorem growBlock_spec (valid : heap.Valid) (use : InUse heap memBlock head) {size n : ℕ}
    (multiple : 4 ∣ size) (larger : head.blockSize < size)
    (grown : growBlock heap head memBlock.toNat size = (n, heap')) :
    (n = 0 ∧ heap' = heap ∧ ∀ next ∈ heap.freeList, next.span.start = head.span.stop →
      next.span.stop < memBlock.toNat + size) ∨
    (size ≤ n ∧ n < size + 0x24 ∧ Resized heap heap' head n ∧ ∃ next ∈ heap.freeList,
      next.span.start = head.span.stop ∧ memBlock.toNat + size ≤ next.span.stop) := by
  obtain ⟨low, start, -, four, four'⟩ := use.bounds valid
  obtain ⟨begins, stop⟩ := use.span valid
  have limit := valid.limit
  rw [growBlock, (valid.used head use.member).1.stop_eq valid.small] at grown
  split at grown
  · case h_1 none =>
    obtain ⟨rfl, rfl⟩ := Prod.mk.inj grown
    refine .inl ⟨rfl, rfl, fun next member touching => ?_⟩
    have := List.find?_eq_none.mp none next member
    rw [(valid.free.free next member).span_start] at touching
    exact absurd (decide_eq_true touching) this
  · case h_2 next found =>
    have member := List.mem_of_find?_eq_some found
    have address : next.address = head.span.stop := by simpa using List.find?_some found
    have touching := (valid.free.free next member).span_start.trans address
    have placed := valid.free.placed next member
    have high : _ ≤ heap.heapEnd := placed.high
    have ends : next.span.stop = next.address + 0x20 + next.blockSize := rfl
    have room := (valid.free.free next member).room
    rw [sizeofBlockHead, wrap_of_lt (by lia)] at grown
    split at grown
    · case isTrue beyond =>
      obtain ⟨rfl, rfl⟩ := Prod.mk.inj grown
      refine .inl ⟨rfl, rfl, fun other there touching' => ?_⟩
      rw [(valid.free.free other there).span_start] at touching'
      obtain rfl := eq_of_address_eq valid.free.apart member there (touching'.trans address.symm)
      lia
    · case isFalse fits =>
      obtain ⟨before, after, parts, around_⟩ := around_eq member fun other there same =>
        eq_of_address_eq valid.free.apart member there same
      have region : next.region.stop = next.span.stop := by
        rw [placed.region_eq valid.small]
      have stop' : wrap (memBlock.toNat + size) = memBlock.toNat + size := wrap_of_lt (by lia)
      simp only [around_, region, stop'] at grown
      have tooSmall := @isTooSmall_iff ⟨memBlock.toNat + size, next.span.stop⟩
        (by simp only; lia) (by simp only; lia)
      split at grown
      · case isTrue small =>
        rw [tooSmall] at small
        simp only at small
        rw [getPointerDifference_of_le (by lia) (by lia)] at grown
        obtain ⟨rfl, rfl⟩ := Prod.mk.inj grown
        refine .inr ⟨by lia, by lia, ?_, next, member, touching, by lia⟩
        have ends' : memBlock.toNat + (next.span.stop - memBlock.toNat) = next.span.stop := by lia
        have four'' := (valid.free.usable member).stop
        exact resized_into_next valid use parts touching (by lia) (by lia) ends'.le
          (.inl ⟨rfl, ends'.symm⟩)
      · case isFalse large =>
        rw [tooSmall] at large
        simp only at large
        rw [getPointerDifference_of_le (by simp only; lia) (by simp only; lia)] at grown
        obtain ⟨rfl, rfl⟩ := Prod.mk.inj grown
        simp only [Nat.add_sub_cancel_left]
        refine .inr ⟨le_rfl, by lia, ?_, next, member, touching, by lia⟩
        exact resized_into_next valid use parts touching multiple larger (by lia)
          (.inr ⟨rfl, by lia⟩)

/-- A block shrinks and frees what is after it, or nothing changes. -/
theorem shrinkBlock_spec (valid : heap.Valid) (use : InUse heap memBlock head) {size n : ℕ}
    (multiple : 4 ∣ size) (smaller : size < head.blockSize)
    (shrunk : shrinkBlock heap head memBlock.toNat size = (n, heap')) :
    (n = head.blockSize ∧ heap' = heap ∧ head.blockSize < size + 0x24 ∧
      ∀ next ∈ heap.freeList, next.span.start ≠ head.span.stop) ∨
    (n = size ∧ Resized heap heap' head n ∧ (size + 0x24 ≤ head.blockSize ∨
      ∃ next ∈ heap.freeList, next.span.start = head.span.stop)) := by
  obtain ⟨low, start, high, four, four'⟩ := use.bounds valid
  obtain ⟨begins, stop⟩ := use.span valid
  have limit := valid.limit
  have free_apart := use.free_disjoint valid
  have coalesced : Coalesced heap.arena heap.freeList ⟨memBlock.toNat + size, head.span.stop⟩
      (coalesceFreedRegion heap.freeList ⟨memBlock.toNat + size, head.span.stop⟩) := by
    refine coalesceFreedRegion_spec valid.free valid.small ?_ ?_ ?_ ?_ ?_ fun free member => ?_
    · simp only
      lia
    · simp only
      lia
    · change heap.heapStart ≤ _
      simp only
      lia
    · change _ ≤ heap.heapEnd
      simp only
      lia
    · simp only
      lia
    · exact (valid.separate free member head use.member).mono (by simp only; lia) le_rfl
  have stop' : wrap (memBlock.toNat + size) = memBlock.toNat + size := wrap_of_lt (by lia)
  rw [shrinkBlock, (valid.used head use.member).1.stop_eq valid.small, stop'] at shrunk
  generalize coalesceFreedRegion heap.freeList ⟨memBlock.toNat + size, head.span.stop⟩ = result
    at coalesced shrunk
  obtain ⟨merged, freeList⟩ := result
  obtain ⟨kept, refused, merges⟩ := coalesced
  simp only at shrunk kept refused merges
  cases merged with
  | true =>
    obtain ⟨tidy, taken_eq⟩ := kept rfl
    obtain ⟨rfl, rfl⟩ := Prod.mk.inj shrunk
    have splits : size + 0x24 ≤ head.blockSize ∨
        ∃ next ∈ heap.freeList, next.span.start = head.span.stop := by
      refine (merges.mp rfl).imp (fun room => by lia) ?_
      rintro ⟨next, member, touches⟩
      refine ⟨next, member, touches.resolve_left fun before => ?_⟩
      -- The end of the block that is kept lies in the block.
      have := MemoryBlock.span_lt next
      have := valid.separate next member head use.member
      rw [Extent.Apart] at this
      lia
    refine .inr ⟨rfl, ?_, splits⟩
    have span : ({ head with blockSize := size } : MemoryBlock).span =
        ⟨head.span.start, memBlock.toNat + size⟩ := by
      rw [← start]
      rfl
    have covers : Extent.toSet ⟨memBlock.toNat + size, head.span.stop⟩ ∪
        Extent.toSet ⟨head.span.start, memBlock.toNat + size⟩ = head.span.toSet := by
      ext a
      simp only [Set.mem_union, Extent.mem_toSet]
      lia
    apply resized_of_taken valid use multiple (by lia) tidy
    · rw [span, taken_eq, Set.union_right_comm, covers, Set.union_comm]
    · rw [span, taken_eq, Set.disjoint_union_left]
      refine ⟨?_, free_apart.mono_right (covers ▸ Set.subset_union_right)⟩
      exact Extent.Apart.disjoint (.inr le_rfl)
  | false =>
    obtain rfl := refused rfl
    obtain ⟨rfl, rfl⟩ := Prod.mk.inj shrunk
    obtain ⟨before, after, parts, others⟩ := use.split valid
    have unchanged : setBlockSize head.address head.blockSize heap.usedList = heap.usedList := by
      rw [parts]
      exact setBlockSize_split others head.blockSize
    have none := mt merges.mpr Bool.false_ne_true
    rw [not_or] at none
    refine .inl ⟨rfl, ?_, by lia, fun next member touching => ?_⟩
    · change { heap with usedList := setBlockSize head.address head.blockSize heap.usedList } = heap
      rw [unchanged]
    · exact none.2 ⟨next, member, .inr touching⟩

theorem Resized.refl (valid : heap.Valid) (use : InUse heap memBlock head) :
    Resized heap heap head head.blockSize := by
  obtain ⟨before, after, parts, -⟩ := use.split valid
  exact ⟨valid, rfl, ⟨before, after, parts, parts⟩, rfl⟩

theorem resizeExpHeapMemoryBlock_of_inUse (valid : heap.Valid) (use : InUse heap memBlock head)
    (size : U64) : resizeExpHeapMemoryBlock heap memBlock size =
      if (Sf.alignUp size 4).toNat = head.blockSize then .ok ((Sf.alignUp size 4).toNat, heap)
      else if (Sf.alignUp size 4).toNat > head.blockSize then
        .ok (growBlock heap head memBlock.toNat (Sf.alignUp size 4).toNat)
      else .ok (shrinkBlock heap head memBlock.toNat (Sf.alignUp size 4).toNat) := by
  rw [resizeExpHeapMemoryBlock, (usedMemoryBlock_eq_ok valid).mpr use]
  rfl

/-- A block has a size that is enough, or it is too small for a bigger one and nothing changes. -/
theorem resizeExpHeapMemoryBlock_spec (valid : heap.Valid) (use : InUse heap memBlock head)
    {size : U64} {n : ℕ} (done : resizeExpHeapMemoryBlock heap memBlock size = .ok (n, heap')) :
    (n = 0 ∧ heap' = heap ∧ head.blockSize < (Sf.alignUp size 4).toNat ∧
      ∀ next ∈ heap.freeList, next.span.start = head.span.stop →
        next.span.stop < memBlock.toNat + (Sf.alignUp size 4).toNat) ∨
    (Sf.alignUp size 4).toNat ≤ n ∧ Resized heap heap' head n := by
  have multiple : 4 ∣ (Sf.alignUp size 4).toNat := by
    rw [alignUp_four_toNat]
    lia
  rw [resizeExpHeapMemoryBlock_of_inUse valid use] at done
  split at done
  · case isTrue same =>
    obtain ⟨rfl, rfl⟩ := Prod.mk.inj (Except.ok.inj done)
    exact .inr ⟨le_rfl, same ▸ .refl valid use⟩
  · case isFalse different =>
    split at done
    · case isTrue larger =>
      rcases growBlock_spec valid use multiple larger (Except.ok.inj done) with
        ⟨none, same, short⟩ | ⟨enough, -, resized, -⟩
      · exact .inl ⟨none, same, larger, short⟩
      · exact .inr ⟨enough, resized⟩
    · case isFalse smaller =>
      have smaller := lt_of_le_of_ne (not_lt.mp smaller) different
      rcases shrinkBlock_spec valid use multiple smaller (Except.ok.inj done) with
        ⟨rfl, rfl, -, -⟩ | ⟨rfl, resized, -⟩
      · exact .inr ⟨smaller.le, .refl valid use⟩
      · exact .inr ⟨le_rfl, resized⟩

/-! ## Adjusting -/

/-- The last free block is cut off if the heap ends with it. -/
theorem adjustExpHeap_spec (valid : heap.Valid) {freed : MemoryRange}
    (adjusted : adjustExpHeap heap = (freed, heap')) :
    heap' = heap ∧ freed = ⟨heap.heapEnd, 0⟩ ∨ ∃ before last, heap.freeList = before ++ [last] ∧
      last.span.stop = heap.heapEnd ∧ freed = ⟨last.address, heap.heapEnd - last.address⟩ ∧
      heap' = { heap with freeList := before, heapEnd := last.address } := by
  have limit := valid.limit
  rw [adjustExpHeap] at adjusted
  rcases List.eq_nil_or_concat heap.freeList with empty | ⟨before, last, parts⟩
  · rw [empty] at adjusted
    obtain ⟨rfl, rfl⟩ := Prod.mk.inj adjusted
    exact .inl ⟨rfl, rfl⟩
  · rw [List.concat_eq_append] at parts
    have member : last ∈ heap.freeList := by simp [parts]
    have placed := valid.free.placed last member
    have high : _ ≤ heap.heapEnd := placed.high
    rw [parts, List.getLast?_concat] at adjusted
    simp only [placed.stop_eq valid.small] at adjusted
    split at adjusted
    · obtain ⟨rfl, rfl⟩ := Prod.mk.inj adjusted
      exact .inl ⟨rfl, rfl⟩
    · case isFalse ends =>
      have ends : last.address + 0x20 + last.blockSize = heap.heapEnd := not_not.mp ends
      have size : wrap (last.blockSize + sizeofBlockHead) = heap.heapEnd - last.address := by
        rw [sizeofBlockHead, wrap_of_lt (by lia)]
        lia
      have address : getPointerDifference (heap.heapEnd - last.address) heap.heapEnd =
          last.address := by
        rw [getPointerDifference_of_le (by lia) (by lia)]
        lia
      rw [size, address, List.dropLast_concat] at adjusted
      obtain ⟨rfl, rfl⟩ := Prod.mk.inj adjusted
      exact .inr ⟨before, last, parts, ends, rfl, rfl⟩

theorem valid_of_adjustExpHeap (valid : heap.Valid) {freed : MemoryRange}
    (adjusted : adjustExpHeap heap = (freed, heap')) : heap'.Valid := by
  rcases adjustExpHeap_spec valid adjusted with
    ⟨rfl, -⟩ | ⟨before, last, parts, ends, -, rfl⟩
  · exact valid
  · have limit := valid.limit
    have member : last ∈ heap.freeList := by simp [parts]
    have start := (valid.free.free last member).span_start
    have order := MemoryBlock.span_lt last
    have listed : ∀ head ∈ before, head ∈ heap.freeList := fun head there => by simp [parts, there]
    have normal := valid.free.normal
    rw [parts, List.map_append] at normal
    obtain ⟨normal', -, across⟩ := Math.Canonical.append_iff.mp normal
    have below : ∀ head ∈ before, head.span.stop ≤ last.address := fun head there => by
      have := across head.span (List.mem_map_of_mem there) last.span (by simp)
      lia
    have below' : ∀ head ∈ heap.usedList, head.span.stop ≤ last.address := fun head there => by
      have high : head.span.stop ≤ heap.heapEnd := (valid.used head there).1.high
      have := MemoryBlock.span_lt head
      have := (valid.separate last member head there).resolve_left (by lia)
      lia
    have shorten {head : MemoryBlock} (placed : head.Placed heap.arena)
        (low : head.span.stop ≤ last.address) :
        head.Placed ⟨heap.heapStart, last.address⟩ :=
      ⟨placed.low, low, placed.address, placed.size, placed.padding⟩
    refine ⟨valid.nonnull, ?_, ⟨normal', ?_, ?_⟩, ?_, valid.apart, ?_⟩
    · change last.address + 2 ^ 31 ≤ 2 ^ 64
      lia
    · exact fun head there =>
        shorten (valid.free.placed head (listed head there)) (below head there)
    · exact fun head there => valid.free.free head (listed head there)
    · exact fun head there => ⟨shorten (valid.used head there).1 (below' head there),
        (valid.used head there).2⟩
    · exact fun head there => valid.separate head (listed head there)

end Hakkun.Mem
