import Hakkun.Soundness.HeapState

/-! # Allocation

A block is chosen among the free ones that fit, and it is cut into the block that is allocated and
its margins. A margin that is too small is padding at the front, and it is lost at the back.
-/

namespace Hakkun.Mem

open Math (Extent Canonical cover)

/-! ## Choice -/

section Choice

variable {isFirstFit : Bool} {size alignment : ℕ} {blocks : List MemoryBlock}

/-- The condition of the loop that does not depend on what is found so far. -/
def Fits (size alignment : ℕ) (block : MemoryBlock) : Prop :=
  block.blockSize ≥
    wrap (size + getPointerDifference block.start (alignAddress block.start alignment))

/-- What the loop finds: nothing that is not worse than a given size, or one of the blocks that fit.
It is the first of them if the first is taken, and otherwise none of them is smaller. -/
theorem chooseBlock_spec (large : ∀ other ∈ blocks, Fits size alignment other →
      size ≤ other.blockSize) (found : Option (MemoryBlock × ℕ)) (bestSize : ℕ) :
    (chooseBlock isFirstFit size alignment blocks found bestSize = found ∧
      ∀ other ∈ blocks, Fits size alignment other → bestSize ≤ other.blockSize) ∨
    ∃ before block after, blocks = before ++ block :: after ∧
      chooseBlock isFirstFit size alignment blocks found bestSize =
        some (block, alignAddress block.start alignment) ∧
      Fits size alignment block ∧ block.blockSize < bestSize ∧
      (isFirstFit = true → ∀ other ∈ before, Fits size alignment other →
        bestSize ≤ other.blockSize) ∧
      (isFirstFit = false → ∀ other ∈ blocks, Fits size alignment other →
        block.blockSize ≤ other.blockSize) := by
  induction blocks generalizing found bestSize with
  | nil => exact .inl ⟨rfl, by simp⟩
  | cons first rest ih =>
    obtain ⟨-, large'⟩ := List.forall_mem_cons.mp large
    rw [chooseBlock]
    split
    · case isTrue taken =>
      obtain ⟨fits, better⟩ := taken
      split
      · case isTrue ends =>
        refine .inr ⟨[], first, rest, rfl, rfl, fits, better, by simp, ?_⟩
        intro best other there fits'
        have same : first.blockSize = size := ends.resolve_left (by simp [best])
        exact same.trans_le (large other there fits')
      · case isFalse goes =>
        obtain ⟨best, -⟩ := not_or.mp goes
        rcases ih large' (some (first, alignAddress first.start alignment)) first.blockSize with
          ⟨result, others⟩ | ⟨before, block, after, rfl, result, fits', smaller, -, least⟩
        · refine .inr ⟨[], first, rest, rfl, result, fits, better, by simp, fun _ => ?_⟩
          exact List.forall_mem_cons.mpr ⟨fun _ => le_rfl, others⟩
        · refine .inr ⟨first :: before, block, after, rfl, result, fits', smaller.trans better,
            fun first_ => absurd first_ best, fun least_ => ?_⟩
          exact List.forall_mem_cons.mpr ⟨fun _ => smaller.le, least least_⟩
    · case isFalse skipped =>
      have here : Fits size alignment first → bestSize ≤ first.blockSize := fun fits =>
        not_lt.mp fun better => skipped ⟨fits, better⟩
      rcases ih large' found bestSize with
        ⟨result, others⟩ | ⟨before, block, after, rfl, result, fits, smaller, earlier, least⟩
      · exact .inl ⟨result, List.forall_mem_cons.mpr ⟨here, others⟩⟩
      · refine .inr ⟨first :: before, block, after, rfl, result, fits, smaller, fun first_ => ?_,
          fun least_ => ?_⟩
        · exact List.forall_mem_cons.mpr ⟨here, earlier first_⟩
        · exact List.forall_mem_cons.mpr ⟨fun fits => smaller.le.trans (here fits), least least_⟩

end Choice

/-! ## Cutting -/

section Cut

variable {heap : ExpHeap} {blockHead : MemoryBlock} {block size : ℕ}
  {direction side : AllocationDirection}

theorem dropsMargin_iff {margin : MemoryRegion} (ordered : margin.start ≤ margin.stop)
    (small : margin.stop < 2 ^ 64) : heap.dropsMargin direction side margin = true ↔
      margin.stop < margin.start + 0x24 ∨ direction = side ∧ heap.useAlignmentMargins = false ∧
        margin.stop < margin.start + 0x80 := by
  rw [ExpHeap.dropsMargin, Bool.or_eq_true, isTooSmall_iff ordered small,
    getPointerDifference_of_le ordered small]
  rw [Bool.and_eq_true, Bool.and_eq_true, decide_eq_true_iff, decide_eq_true_iff, Bool.not_eq_true',
    and_assoc, Nat.sub_lt_iff_lt_add ordered, Nat.add_comm maximumPaddingalignment]
  rfl

/-- A place in a free block for a block of some size. -/
structure Cut (heap : ExpHeap) (blockHead : MemoryBlock) (block size : ℕ) : Prop where
  member : blockHead ∈ heap.freeList
  low : blockHead.address + 0x20 ≤ block
  high : block + size ≤ blockHead.span.stop
  start : 4 ∣ block
  size : 4 ∣ size

/-- The margins of the place. -/
def frontMargin (blockHead : MemoryBlock) (block : ℕ) : MemoryRegion :=
  ⟨blockHead.address, block - 0x20⟩

def backMargin (blockHead : MemoryBlock) (block size : ℕ) : MemoryRegion :=
  ⟨block + size, blockHead.span.stop⟩

/-- The margins that become blocks. -/
def keptMargins (heap : ExpHeap) (blockHead : MemoryBlock) (block size : ℕ)
    (direction : AllocationDirection) : List MemoryRegion :=
  (if heap.dropsMargin direction .front (frontMargin blockHead block) then []
    else [frontMargin blockHead block]) ++
  if heap.dropsMargin direction .back (backMargin blockHead block size) then []
    else [backMargin blockHead block size]

/-- The addresses that are lost. -/
def lostMargin (heap : ExpHeap) (blockHead : MemoryBlock) (block size : ℕ)
    (direction : AllocationDirection) : Set ℕ :=
  if heap.dropsMargin direction .back (backMargin blockHead block size) then
    (backMargin blockHead block size).toSet
  else ∅

/-- A block that is allocated at the place. -/
structure Allocated (heap : ExpHeap) (blockHead : MemoryBlock) (block size : ℕ)
    (direction : AllocationDirection) (used : MemoryBlock) : Prop where
  payload : used.payload = ⟨block, block + size⟩
  span : used.span.start =
    if heap.dropsMargin direction .front (frontMargin blockHead block) then blockHead.address
    else block - 0x20
  placed : used.Placed heap.arena
  magic : used.magic = usedBlockMagic
  groupId : used.groupId = heap.groupId &&& 0xFF
  direction : used.allocationDirection = direction

theorem Allocated.apart {used : MemoryBlock}
    (allocated : Allocated heap blockHead block size direction used) {part : MemoryRegion}
    (member : part ∈ keptMargins heap blockHead block size direction) :
    part.Apart used.span := by
  have stop : used.span.stop = block + size := congrArg Extent.stop allocated.payload
  rcases List.mem_append.mp member with there | there
  · split at there
    · cases there
    · case isFalse kept =>
      obtain rfl := List.mem_singleton.mp there
      have span := allocated.span
      rw [if_neg kept] at span
      exact .inl span.ge
  · split at there
    · cases there
    · obtain rfl := List.mem_singleton.mp there
      exact .inr stop.le

variable (valid : heap.Valid) (cut : Cut heap blockHead block size)

include valid cut

theorem Cut.bounds : heap.heapStart ≤ blockHead.address ∧ blockHead.span.stop ≤ heap.heapEnd ∧
    blockHead.span.start = blockHead.address ∧ 4 ∣ blockHead.address ∧
      4 ∣ blockHead.span.stop := by
  have usable := valid.free.usable cut.member
  have start := (valid.free.free _ cut.member).span_start
  exact ⟨start ▸ usable.low, usable.high, start, start ▸ usable.start, usable.stop⟩

theorem Cut.dropsFront_iff :
    heap.dropsMargin direction .front (frontMargin blockHead block) = true ↔
      block < blockHead.address + 0x44 ∨ direction = .front ∧ heap.useAlignmentMargins = false ∧
        block < blockHead.address + 0xA0 := by
  obtain ⟨-, high, -, -, -⟩ := cut.bounds valid
  have limit := valid.limit
  have low := cut.low
  have high' := cut.high
  rw [dropsMargin_iff (by simp only [frontMargin]; omega) (by simp only [frontMargin]; omega)]
  apply or_congr
  · change block - 0x20 < blockHead.address + 0x24 ↔ _
    omega
  · apply and_congr_right fun _ => and_congr_right fun _ => ?_
    change block - 0x20 < blockHead.address + 0x80 ↔ _
    omega

theorem Cut.dropsBack_iff :
    heap.dropsMargin direction .back (backMargin blockHead block size) = true ↔
      blockHead.span.stop < block + size + 0x24 ∨ direction = .back ∧
        heap.useAlignmentMargins = false ∧ blockHead.span.stop < block + size + 0x80 := by
  obtain ⟨-, high, -, -, -⟩ := cut.bounds valid
  have limit := valid.limit
  exact dropsMargin_iff cut.high (by simp only [backMargin]; omega)

theorem Cut.exists_allocated : ∃ used,
    Allocated heap blockHead block size direction used ∧
      used = (initializeUsedMemoryBlock ⟨block - 0x20, block + size⟩
        |>.setAllocationDirection direction
        |>.setAlignmentPadding (BitVec.ofNat 16 (getPointerDifference
          (if heap.dropsMargin direction .front (frontMargin blockHead block)
            then blockHead.address else block - 0x20) (block - 0x20)))
        |>.setGroupId heap.groupId) := by
  obtain ⟨low, high, -, multiple, -⟩ := cut.bounds valid
  have limit := valid.limit
  have room := cut.low
  have high' := cut.high
  have four := cut.start
  have four' := cut.size
  obtain ⟨start, begins⟩ : ∃ start,
      (if heap.dropsMargin direction .front (frontMargin blockHead block) then blockHead.address
        else block - 0x20) = start := ⟨_, rfl⟩
  have near : blockHead.address ≤ start ∧ start ≤ block - 0x20 ∧ block - 0x20 < start + 0x80 ∧
      4 ∣ start := by
    split at begins
    · case isTrue dropped =>
      rw [cut.dropsFront_iff valid] at dropped
      omega
    · omega
  obtain ⟨used, given⟩ : ∃ used, used =
      (initializeUsedMemoryBlock ⟨block - 0x20, block + size⟩
        |>.setAllocationDirection direction
        |>.setAlignmentPadding (BitVec.ofNat 16 (getPointerDifference start (block - 0x20)))
        |>.setGroupId heap.groupId) := ⟨_, rfl⟩
  have initial : initializeUsedMemoryBlock ⟨block - 0x20, block + size⟩ =
      ⟨block - 0x20, usedBlockMagic, 0, size⟩ := by
    rw [initializeUsedMemoryBlock,
      initializeMemoryBlock_eq (by simp only; omega) (by simp only; omega)]
    congr 1
    simp only
    omega
  have padding : used.alignmentPadding = block - 0x20 - start := by
    rw [given, MemoryBlock.alignmentPadding_setGroupId,
      getPointerDifference_of_le (by omega) (by omega),
      MemoryBlock.alignmentPadding_setAlignmentPadding (by omega)]
  have address : used.address = block - 0x20 := by rw [given, initial]; rfl
  have blockSize : used.blockSize = size := by rw [given, initial]; rfl
  rw [begins]
  refine ⟨used, ⟨?_, ?_, ⟨?_, ?_, ?_, ?_, ?_⟩, ?_, ?_, ?_⟩, given⟩
  · rw [MemoryBlock.payload, address, blockSize]
    congr 1 <;> omega
  · rw [begins, MemoryBlock.span, address, padding]
    change block - 0x20 - (block - 0x20 - start) = start
    omega
  · change heap.heapStart + _ ≤ _
    omega
  · change _ ≤ heap.heapEnd
    omega
  · omega
  · omega
  · omega
  · rw [given, initial]
    rfl
  · rw [given, MemoryBlock.groupId_setGroupId]
  · rw [given, MemoryBlock.allocationDirection_setAllocationDirection]

theorem convertFreeBlockToUsedBlock_spec : ∃ before after used,
    heap.freeList = before ++ blockHead :: after ∧
    Allocated heap blockHead block size direction used ∧
    convertFreeBlockToUsedBlock heap blockHead block size direction = { heap with
      freeList := before ++ ((keptMargins heap blockHead block size direction).map
        initializeFreeMemoryBlock ++ after)
      usedList := heap.usedList ++ [used] } := by
  obtain ⟨low, high, start, multiple, -⟩ := cut.bounds valid
  have limit := valid.limit
  have room := cut.low
  have high' := cut.high
  obtain ⟨used, allocated, given⟩ : ∃ used,
    Allocated heap blockHead block size direction used ∧ _ := cut.exists_allocated valid
  obtain ⟨before, after, parts, found⟩ := around_eq cut.member fun other there same =>
    eq_of_address_eq valid.free.apart cut.member there same
  have head : getHeadForMemoryBlock block = block - 0x20 :=
    getPointerDifference_of_le (by simp only [sizeofBlockHead]; omega) (by omega)
  have region : blockHead.region = ⟨blockHead.address, blockHead.span.stop⟩ := by
    rw [(valid.free.placed _ cut.member).region_eq valid.small, ← start]
  have stop : wrap (block + size) = block + size := wrap_of_lt (by omega)
  refine ⟨before, after, used, parts, allocated, ?_⟩
  simp only [convertFreeBlockToUsedBlock, head, region, found, stop]
  rw [given, keptMargins, frontMargin, backMargin]
  cases heap.dropsMargin direction .front ⟨blockHead.address, block - 0x20⟩ <;>
    cases heap.dropsMargin direction .back ⟨block + size, blockHead.span.stop⟩ <;> rfl

/-- What a kept margin is. -/
theorem Cut.usable {part : MemoryRegion}
    (member : part ∈ keptMargins heap blockHead block size direction) :
    Usable heap.arena part ∧ blockHead.span.start ≤ part.start ∧
      part.stop ≤ blockHead.span.stop := by
  obtain ⟨low, high, start, multiple, multiple'⟩ := cut.bounds valid
  have limit := valid.limit
  have room := cut.low
  have high' := cut.high
  have four := cut.start
  have four' := cut.size
  have low' := valid.nonnull
  rcases List.mem_append.mp member with there | there
  · split at there
    · cases there
    · case isFalse kept =>
      obtain rfl := List.mem_singleton.mp there
      rw [cut.dropsFront_iff valid] at kept
      have stop : (frontMargin blockHead block).stop = block - 0x20 := rfl
      refine ⟨⟨low, ?_, multiple, ?_, ?_⟩, start.le, ?_⟩
      · change _ ≤ heap.heapEnd
        omega
      · omega
      · change blockHead.address + 0x24 ≤ _
        omega
      · omega
  · split at there
    · cases there
    · case isFalse kept =>
      obtain rfl := List.mem_singleton.mp there
      rw [cut.dropsBack_iff valid] at kept
      have begin : (backMargin blockHead block size).start = block + size := rfl
      refine ⟨⟨?_, high, ?_, multiple', ?_⟩, ?_, le_rfl⟩
      · change heap.heapStart ≤ _
        omega
      · omega
      · change _ ≤ blockHead.span.stop
        omega
      · omega

theorem Cut.normal : Canonical (keptMargins heap blockHead block size direction) := by
  have usable {part} (member : part ∈ keptMargins heap blockHead block size direction) :=
    (cut.usable valid member).1.room
  refine ⟨fun part member => by have := usable member; omega, ?_⟩
  rw [keptMargins]
  have := cut.low
  split
  · split <;> simp
  · split
    · simp
    · simp only [List.cons_append, List.nil_append, List.pairwise_cons, List.mem_singleton,
        forall_eq, List.not_mem_nil, false_imp_iff, implies_true, List.Pairwise.nil, and_true]
      simp only [frontMargin, backMargin]
      omega

/-- The free block is the block that is cut out, the margins that are kept, and what is lost. -/
theorem Cut.toSet_eq {used : MemoryBlock}
    (allocated : Allocated heap blockHead block size direction used) :
    blockHead.span.toSet =
      used.span.toSet ∪ cover (keptMargins heap blockHead block size direction) ∪
        lostMargin heap blockHead block size direction ∧
    Disjoint (lostMargin heap blockHead block size direction)
      (used.span.toSet ∪ cover (keptMargins heap blockHead block size direction)) := by
  obtain ⟨-, -, start, -, -⟩ := cut.bounds valid
  have stop : used.span.stop = block + size := congrArg Extent.stop allocated.payload
  have low := cut.low
  have high := cut.high
  have span := allocated.span
  rw [keptMargins, lostMargin]
  generalize heap.dropsMargin direction .front (frontMargin blockHead block) = front at span ⊢
  generalize heap.dropsMargin direction .back (backMargin blockHead block size) = back
  rw [Set.disjoint_left]
  constructor
  · ext a
    cases front <;> cases back <;> simp only [↓reduceIte, Bool.false_eq_true] at span <;>
      simp only [Math.cover_append, Math.cover_cons, Math.cover_nil, Set.mem_union,
        Set.mem_empty_iff_false, Extent.mem_toSet, List.nil_append, or_false, frontMargin,
        backMargin, start, stop, span, ↓reduceIte, Bool.false_eq_true] <;>
      omega
  · intro a
    cases front <;> cases back <;> simp only [↓reduceIte, Bool.false_eq_true] at span <;>
      simp only [Math.cover_append, Math.cover_cons, Math.cover_nil, Set.mem_union,
        Set.mem_empty_iff_false, Extent.mem_toSet, List.nil_append, or_false, frontMargin,
        backMargin, stop, span, ↓reduceIte, Bool.false_eq_true, false_implies] <;>
      omega

/-! ## Allocated blocks -/

/-- What a heap has become when a block is cut out of a free block. -/
structure Carved (heap heap' : ExpHeap) (used : MemoryBlock) (lost : Set ℕ) : Prop where
  valid : heap'.Valid
  arena : heap'.arena = heap.arena
  usedList : heap'.usedList = heap.usedList ++ [used]
  taken_eq : taken heap.freeList = used.span.toSet ∪ taken heap'.freeList ∪ lost
  disjoint : Disjoint lost (used.span.toSet ∪ taken heap'.freeList)

theorem Cut.carved : ∃ used,
  Allocated heap blockHead block size direction used ∧
    Carved heap (convertFreeBlockToUsedBlock heap blockHead block size direction) used
      (lostMargin heap blockHead block size direction) := by
  obtain ⟨before, after, used, parts, allocated, result⟩ : ∃ before after used, _ ∧
    Allocated heap blockHead block size direction used ∧ _ :=
      convertFreeBlockToUsedBlock_spec valid cut
  refine ⟨used, allocated, ?_⟩
  have tidy := valid.free
  rw [parts] at tidy
  have normal : Canonical (keptMargins heap blockHead block size direction) := cut.normal valid
  obtain ⟨free, taken_eq, before_, outside⟩ :=
    tidy.replace valid.small normal fun part member => cut.usable valid member
  rw [← parts] at before_
  obtain ⟨whole, lost⟩ := cut.toSet_eq valid allocated
  have inside : cover (keptMargins heap blockHead block size direction) ⊆ blockHead.span.toSet ∧
      used.span.toSet ⊆ blockHead.span.toSet ∧
        lostMargin heap blockHead block size direction ⊆ blockHead.span.toSet := by
    rw [whole]
    exact ⟨Set.subset_union_right.trans Set.subset_union_left,
      Set.subset_union_left.trans Set.subset_union_left, Set.subset_union_right⟩
  have separate : Disjoint (cover (keptMargins heap blockHead block size direction))
      used.span.toSet := by
    rw [Set.disjoint_left]
    rintro a ⟨part, member, here⟩
    exact Set.disjoint_left.mp (allocated.apart member).disjoint here
  rw [result]
  refine ⟨?_, rfl, rfl, ?_, ?_⟩
  · apply @ExpHeap.Valid.exchange heap valid heap.usedList [] [used] [] _ (by simp) free
    · intro head member
      obtain rfl := List.mem_singleton.mp member
      exact ⟨allocated.placed, allocated.magic⟩
    · exact List.pairwise_singleton ..
    · rw [taken_eq, taken_singleton, before_]
      refine Set.subset_union_of_subset_left (Set.union_subset ?_ ?_) _
      · exact Set.union_subset_union_right _ inside.1
      · exact inside.2.1.trans Set.subset_union_right
    · rw [taken_eq, taken_singleton, Set.disjoint_union_left]
      exact ⟨(outside.mono_left inside.2.1).symm, separate⟩
  · rw [taken_eq, before_, whole]
    ext a
    simp only [Set.mem_union]
    tauto
  · rw [taken_eq, ← Set.union_assoc, Set.union_right_comm, Set.disjoint_union_right]
    exact ⟨lost, outside.mono_left inside.2.2⟩

end Cut

/-! ## Requests -/

section Request

variable {heap : ExpHeap} {size k : ℕ} {direction : AllocationDirection}

/-- Where a block of a size can be cut out of a free block. -/
structure Room (size alignment : ℕ) (blockHead : MemoryBlock) : Prop where
  inside : alignAddress (blockHead.address + 0x20) alignment + size ≤ blockHead.span.stop

variable (valid : heap.Valid) (power : k ≤ 30) (bounded : size + 2 ^ k ≤ 2 ^ 64)

include valid power in
theorem alignsTo_of_mem {blockHead : MemoryBlock} (member : blockHead ∈ heap.freeList) :
    AlignsTo (2 ^ k) (blockHead.address + 0x20)
      (alignAddress (blockHead.address + 0x20) (2 ^ k)) := by
  have high := (valid.free.placed _ member).high
  have limit := valid.limit
  change _ ≤ heap.heapEnd at high
  exact alignAddress_spec rfl (by omega) (by omega)

include valid power bounded

/-- The condition of the loop says that there is room. -/
theorem fits_iff {blockHead : MemoryBlock} (member : blockHead ∈ heap.freeList) :
    Fits size (2 ^ k) blockHead ↔ Room size (2 ^ k) blockHead := by
  have placed := valid.free.placed _ member
  have high := placed.high
  have limit := valid.limit
  have aligns := alignsTo_of_mem valid power member
  have le := aligns.le
  have lt := aligns.lt
  have small : 2 ^ k ≤ 2 ^ 30 := Nat.pow_le_pow_right (by decide) power
  change _ ≤ heap.heapEnd at high
  rw [Fits, placed.start_eq valid.small, getPointerDifference_of_le le (by omega),
    wrap_of_lt (by omega)]
  constructor
  · exact fun fits => ⟨by change _ ≤ blockHead.address + 0x20 + _; omega⟩
  · rintro ⟨inside⟩
    change _ ≤ blockHead.address + 0x20 + _ at inside
    omega

/-- Nothing is found without room, and otherwise it is the first free block with room, or one of the
smallest. -/
theorem findBlock_cases :
    (heap.findBlock size (2 ^ k) direction = none ∧
      ∀ blockHead ∈ heap.freeList, ¬ Room size (2 ^ k) blockHead) ∨
    ∃ before blockHead after, heap.freeBlocks direction = before ++ blockHead :: after ∧
      Room size (2 ^ k) blockHead ∧ blockHead ∈ heap.freeList ∧
      heap.findBlock size (2 ^ k) direction =
        some (blockHead, alignAddress (blockHead.address + 0x20) (2 ^ k)) ∧
      (heap.mode = .firstFit → ∀ other ∈ before, ¬ Room size (2 ^ k) other) ∧
      (heap.mode = .bestFit → ∀ other ∈ heap.freeList, Room size (2 ^ k) other →
        blockHead.blockSize ≤ other.blockSize) := by
  have listed (other : MemoryBlock) :
      other ∈ heap.freeBlocks direction ↔ other ∈ heap.freeList := by
    cases direction
    · exact Iff.rfl
    · exact List.mem_reverse
  have small {other : MemoryBlock} (member : other ∈ heap.freeList) :
      other.blockSize < 2 ^ 64 - 1 := by
    have high := (valid.free.placed _ member).high
    have limit := valid.limit
    change _ ≤ heap.heapEnd at high
    omega
  have large : ∀ other ∈ heap.freeBlocks direction, Fits size (2 ^ k) other →
      size ≤ other.blockSize := fun other there fits => by
    have member := (listed other).mp there
    obtain ⟨inside⟩ := (fits_iff valid power bounded member).mp fits
    have le := (alignsTo_of_mem valid power member).le
    change _ ≤ other.address + 0x20 + _ at inside
    omega
  rw [ExpHeap.findBlock]
  rcases @chooseBlock_spec (heap.mode = .firstFit) _ _ _ large none (2 ^ 64 - 1) with
    ⟨result, others⟩ | ⟨before, blockHead, after, parts, result, fits, -, first, best⟩
  · refine .inl ⟨result, fun other member room => ?_⟩
    have fits := (fits_iff valid power bounded member).mpr room
    exact absurd (small member) (not_lt.mpr (others other ((listed other).mpr member) fits))
  · have member : blockHead ∈ heap.freeList := (listed _).mp (parts ▸ by simp)
    have start := (valid.free.placed _ member).start_eq valid.small
    refine .inr ⟨before, blockHead, after, parts, (fits_iff valid power bounded member).mp fits,
      member, by rw [result, start], ?_, ?_⟩
    · intro mode other there room
      have there' := (listed other).mp (parts ▸ List.mem_append_left _ there)
      have fits' := (fits_iff valid power bounded there').mpr room
      exact absurd (small there') (not_lt.mpr (first (by simp [mode]) other there fits'))
    · intro mode other there room
      exact best (by simp [mode]) other ((listed other).mpr there)
        ((fits_iff valid power bounded there).mpr room)

omit power bounded in
include power in
/-- A free block with room can be cut. -/
theorem Room.cut (multiple : 4 ∣ size) (large : 2 ≤ k) {blockHead : MemoryBlock}
    (room : Room size (2 ^ k) blockHead) (member : blockHead ∈ heap.freeList) :
    Cut heap blockHead (alignAddress (blockHead.address + 0x20) (2 ^ k)) size := by
  have aligns := alignsTo_of_mem valid power member
  exact ⟨member, aligns.le, room.inside, (pow_dvd_pow 2 large).trans aligns.dvd, multiple⟩

end Request

/-- The numbers that an allocation goes on with. -/
theorem allocateFromExpHeap_eq_ok {heap : ExpHeap} {size : U64} {alignment : BitVec 32}
    {result : Option ℕ × ExpHeap} (done : allocateFromExpHeap heap size alignment = .ok result) :
    ∃ k, 2 ≤ k ∧ k ≤ 30 ∧ (fixAlignment alignment).natAbs = 2 ^ k ∧
      allocateFrom heap (allocationSize size) (2 ^ k)
        (directionOf alignment) = result := by
  rw [allocateFromExpHeap] at done
  have bound : (fixAlignment alignment).natAbs ≤ 2 ^ 31 := by
    have low := BitVec.le_toInt alignment
    have high := BitVec.toInt_lt (x := alignment)
    rw [fixAlignment]
    split
    · decide
    · split
      · decide
      · omega
  generalize (fixAlignment alignment).natAbs = absAlignment at done bound
  split at done
  · cases done
  · case isFalse least =>
    split at done
    · cases done
    · case isFalse power =>
      split at done
      · cases done
      · case isFalse large =>
        have positive : absAlignment ≠ 0 := by
          rintro rfl
          exact large (by decide)
        obtain ⟨k, rfl⟩ := (Nat.and_sub_one_eq_zero_iff_isPowerOfTwo positive).mp
          (not_not.mp power)
        refine ⟨k, ?_, ?_, rfl, Except.ok.inj done⟩
        · by_contra small
          have := Nat.pow_le_pow_right (show 0 < 2 by decide) (show k ≤ 1 by omega)
          rw [minimumAlignment] at large
          omega
        · by_contra big
          have := Nat.pow_lt_pow_right (show 1 < 2 by decide) (show 30 < k by omega)
          have := Nat.pow_le_pow_right (show 0 < 2 by decide) (show 31 ≤ k by omega)
          omega

theorem allocationSize_eq (size : U64) : allocationSize size =
    ((if size = 0 then 1 else size).toNat + 3) % 2 ^ 64 -
      ((if size = 0 then 1 else size).toNat + 3) % 2 ^ 64 % 4 :=
  alignUp_four_toNat _

theorem four_dvd_allocationSize (size : U64) : 4 ∣ allocationSize size := by
  rw [allocationSize_eq]
  omega

/-- What a request that is granted has done. -/
structure Granted (heap heap' : ExpHeap) (size alignment : ℕ) (direction : AllocationDirection)
    (block : ℕ) (blockHead used : MemoryBlock) : Prop where
  found : heap.findBlock size alignment direction = some (blockHead, block)
  cut : Cut heap blockHead block size
  aligned : AlignsTo alignment (blockHead.address + 0x20) block
  allocated : Allocated heap blockHead block size direction used
  carved : Carved heap heap' used (lostMargin heap blockHead block size direction)

/-- The requests for which no size wraps. -/
def InRange (size : U64) (alignment : BitVec 32) : Prop :=
  size.toNat + 4 + (fixAlignment alignment).natAbs ≤ 2 ^ 64

theorem InRange.size {size : U64} {alignment : BitVec 32} (range : InRange size alignment) :
    size.toNat ≤ allocationSize size ∧ 4 ≤ allocationSize size ∧
      allocationSize size + (fixAlignment alignment).natAbs ≤ 2 ^ 64 := by
  have small : size.toNat + 4 + _ ≤ 2 ^ 64 := range
  rcases eq_or_ne size 0 with rfl | nonzero
  · exact ⟨by decide, by decide, small⟩
  · have positive : size.toNat ≠ 0 := fun zero => nonzero (BitVec.eq_of_toNat_eq zero)
    rw [allocationSize_eq, if_neg nonzero]
    omega

/-- A request is refused without room, and otherwise a block is cut out of one with room. -/
theorem allocateFromExpHeap_spec {heap heap' : ExpHeap} {size : U64} {alignment : BitVec 32}
    {result : Option ℕ} (valid : heap.Valid) (range : InRange size alignment)
    (done : allocateFromExpHeap heap size alignment = .ok (result, heap')) :
    (result = none ∧ heap' = heap ∧
      heap.findBlock (allocationSize size) (fixAlignment alignment).natAbs
        (directionOf alignment) = none ∧
      ∀ blockHead ∈ heap.freeList,
        ¬ Room (allocationSize size) (fixAlignment alignment).natAbs blockHead) ∨
    ∃ block blockHead used, result = some block ∧
      Granted heap heap' (allocationSize size) (fixAlignment alignment).natAbs
        (directionOf alignment) block blockHead used := by
  obtain ⟨-, -, bounded⟩ := range.size
  obtain ⟨k, large, power, abs, done⟩ := allocateFromExpHeap_eq_ok done
  rw [abs] at bounded ⊢
  rcases findBlock_cases valid power bounded with
    ⟨refused, others⟩ | ⟨-, blockHead, -, -, room, member, found, -, -⟩
  · rw [allocateFrom, refused] at done
    obtain ⟨rfl, rfl⟩ := Prod.mk.inj done
    exact .inl ⟨rfl, rfl, refused, others⟩
  · rw [allocateFrom, found] at done
    obtain ⟨rfl, rfl⟩ := Prod.mk.inj done
    have cut := room.cut valid power (four_dvd_allocationSize size) large member
    obtain ⟨used, allocated, carved⟩ := cut.carved valid
    exact .inr ⟨_, blockHead, used, rfl, found, cut, alignsTo_of_mem valid power member, allocated,
      carved⟩

end Hakkun.Mem
