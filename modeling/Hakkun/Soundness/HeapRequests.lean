import Hakkun.Soundness.HeapRuns

/-! # Requests

Which requests end, which are granted, and where. `GetExpHeapAllocatableSize` is exactly what the
next allocation can have; the free block that is cut is the nearest one or one of the smallest; a
block grows, shrinks or stays by what is free behind it.
-/

namespace Hakkun.Mem

open Math (Extent Canonical cover)

variable {heap heap' : ExpHeap} {size : U64} {alignment : BitVec 32}

/-! ## What can be allocated -/

/-- A turn takes the bigger of two sizes. -/
theorem le_allocatableTurn_iff {n absAlignment : ℕ} {best : ℕ × ℕ} {block : MemoryBlock}
    (positive : 0 < n) (small : block.stop < 2 ^ 64) :
    n ≤ (allocatableTurn absAlignment best block).1 ↔
      n ≤ best.1 ∨ alignAddress block.start absAlignment + n ≤ block.stop := by
  obtain ⟨maxSize, minOffset⟩ := best
  rw [allocatableTurn]
  simp only
  split
  · case isTrue inside =>
    rw [getPointerDifference_of_le inside.le small]
    split
    · case isTrue taken =>
      change n ≤ block.stop - _ ↔ _
      omega
    · case isFalse skipped =>
      rw [not_or] at skipped
      omega
  · case isFalse outside =>
    change n ≤ maxSize ↔ _
    omega

theorem le_foldl_allocatableTurn_iff {n absAlignment : ℕ} (positive : 0 < n)
    {blocks : List MemoryBlock} (small : ∀ block ∈ blocks, block.stop < 2 ^ 64) (best : ℕ × ℕ) :
    n ≤ (blocks.foldl (allocatableTurn absAlignment) best).1 ↔
      n ≤ best.1 ∨ ∃ block ∈ blocks, alignAddress block.start absAlignment + n ≤ block.stop := by
  induction blocks generalizing best with
  | nil => simp
  | cons block rest ih =>
    obtain ⟨own, others⟩ := List.forall_mem_cons.mp small
    rw [List.foldl_cons, ih others, le_allocatableTurn_iff positive own, List.exists_mem_cons_iff,
      or_assoc]

/-- The size is that of the most room that a free block has. -/
theorem le_getExpHeapAllocatableSize_iff (valid : heap.Valid) {n absAlignment : ℕ}
    (positive : 0 < n) : n ≤ getExpHeapAllocatableSize heap absAlignment ↔
      ∃ block ∈ heap.freeList, Room n absAlignment block := by
  have stops : ∀ block ∈ heap.freeList, block.stop = block.span.stop := fun block member =>
    (valid.free.placed block member).stop_eq valid.small
  have small : ∀ block ∈ heap.freeList, block.stop < 2 ^ 64 := fun block member => by
    have high : _ ≤ heap.heapEnd := (valid.free.usable member).high
    have limit := valid.limit
    rw [stops block member]
    omega
  rw [getExpHeapAllocatableSize, le_foldl_allocatableTurn_iff positive small]
  simp only [Nat.le_zero_eq, Nat.pos_iff_ne_zero.mp positive, false_or]
  apply exists_congr fun block => and_congr_right fun member => ?_
  rw [stops block member, (valid.free.placed block member).start_eq valid.small]
  exact ⟨fun inside => ⟨inside⟩, fun room => room.inside⟩

/-- The alignments below four do not matter, since all blocks are aligned to four. -/
theorem alignAddress_eq_self {address k : ℕ} (multiple : 4 ∣ address) (power : k ≤ 2)
    (small : address + 2 ^ 31 ≤ 2 ^ 64) : alignAddress address (2 ^ k) = address := by
  have aligns : AlignsTo (2 ^ k) address (alignAddress address (2 ^ k)) :=
    alignAddress_spec rfl (by omega) small
  exact le_antisymm (aligns.le_of_dvd le_rfl ((pow_dvd_pow 2 power).trans multiple)) aligns.le

theorem fixAlignment_natAbs : (fixAlignment alignment).natAbs = alignment.toInt.natAbs ∨
    (fixAlignment alignment).natAbs = 2 ^ 2 ∧ ∃ k ≤ 1, alignment.toInt.natAbs = 2 ^ k := by
  rw [fixAlignment]
  split
  · case isTrue small =>
    rcases small with rfl | rfl
    · exact .inr ⟨rfl, 0, by omega, rfl⟩
    · exact .inr ⟨rfl, 1, by omega, rfl⟩
  · split
    · case isTrue small =>
      rcases small with rfl | rfl
      · exact .inr ⟨rfl, 0, by omega, rfl⟩
      · exact .inr ⟨rfl, 1, by omega, rfl⟩
    · exact .inl rfl

theorem room_fixAlignment_iff (valid : heap.Valid) {n : ℕ} {block : MemoryBlock}
    (member : block ∈ heap.freeList) : Room n (fixAlignment alignment).natAbs block ↔
      Room n alignment.toInt.natAbs block := by
  rcases @fixAlignment_natAbs alignment with same | ⟨four, k, power, raw⟩
  · rw [same]
  · have placed := valid.free.placed block member
    have multiple := placed.address
    have high : _ ≤ heap.heapEnd := placed.high
    have limit := valid.limit
    have self {k : ℕ} (power : k ≤ 2) :
        alignAddress (block.address + 0x20) (2 ^ k) = block.address + 0x20 :=
      alignAddress_eq_self (by omega) power (by omega)
    rw [four, raw]
    constructor
    · rintro ⟨inside⟩
      rw [self le_rfl] at inside
      exact ⟨by rwa [self (by omega)]⟩
    · rintro ⟨inside⟩
      rw [self (by omega)] at inside
      exact ⟨by rwa [self le_rfl]⟩

theorem Granted.room {n k block : ℕ} {direction : AllocationDirection}
    {blockHead used : MemoryBlock} (valid : heap.Valid) (power : k ≤ 30)
    (granted : Granted heap heap' n (2 ^ k) direction block blockHead used) :
    Room n (2 ^ k) blockHead := by
  have cut := granted.cut
  have above := (alignsTo_of_mem valid power cut.member).le_of_dvd cut.low granted.aligned.dvd
  exact ⟨(Nat.add_le_add_right above _).trans cut.high⟩

/-- An allocation is granted exactly if its size is at most what is said to be allocatable. -/
theorem allocate_iff_allocatable (valid : heap.Valid) (range : InRange size alignment)
    {result : Option ℕ} (done : allocateFromExpHeap heap size alignment = .ok (result, heap')) :
    (∃ block, result = some block) ↔
      allocationSize size ≤ getExpHeapAllocatableSize heap alignment.toInt.natAbs := by
  have positive : 0 < allocationSize size := by
    have := range.size
    omega
  rw [le_getExpHeapAllocatableSize_iff valid positive]
  rcases allocateFromExpHeap_spec valid range done with
    ⟨rfl, -, -, none⟩ | ⟨block, blockHead, used, rfl, granted⟩
  · refine iff_of_false (by simp) ?_
    rintro ⟨block, member, room⟩
    exact none block member ((room_fixAlignment_iff valid member).mpr room)
  · refine iff_of_true ⟨block, rfl⟩ ⟨blockHead, granted.cut.member, ?_⟩
    obtain ⟨k, -, power, abs, -⟩ := allocateFromExpHeap_eq_ok done
    rw [← room_fixAlignment_iff valid granted.cut.member, abs]
    rw [abs] at granted
    exact granted.room valid power

theorem allocate_iff_allocatable_oneHeap :
    (∃ block, (none : Option ℕ) = some block) ↔
      0xF7C ≤ getExpHeapAllocatableSize oneHeap (BitVec.toInt (-8 : BitVec 32)).natAbs := by
  have range : InRange 0xF7C (-8) := by
    change _ + 4 + _ ≤ _
    decide
  exact allocate_iff_allocatable oneHeap_valid range rfl

/-- The free block that is cut: the nearest with room in the direction of the allocation, or one of
the smallest with room. -/
structure Chosen (heap : ExpHeap) (n absAlignment : ℕ) (direction : AllocationDirection)
    (blockHead : MemoryBlock) : Prop where
  member : blockHead ∈ heap.freeList
  front : heap.mode = .firstFit → direction = .front → ∀ other ∈ heap.freeList,
    Room n absAlignment other → blockHead.address ≤ other.address
  back : heap.mode = .firstFit → direction = .back → ∀ other ∈ heap.freeList,
    Room n absAlignment other → other.address ≤ blockHead.address
  best : heap.mode = .bestFit → ∀ other ∈ heap.freeList,
    Room n absAlignment other → blockHead.blockSize ≤ other.blockSize

theorem FreeBlocks.ascends {arena : Extent ℕ} {before after : List MemoryBlock}
    {blockHead : MemoryBlock} (tidy : FreeBlocks arena (before ++ blockHead :: after)) :
    (∀ other ∈ before, other.address ≤ blockHead.address) ∧
      ∀ other ∈ after, blockHead.address ≤ other.address := by
  have spanned {other : MemoryBlock} (member : other ∈ before ++ blockHead :: after) :
      other.span.start = other.address := (tidy.free other member).span_start
  have own := spanned (List.mem_append_right _ (List.mem_cons_self ..))
  obtain ⟨-, later, earlier⟩ := List.pairwise_append.mp (List.pairwise_map.mp tidy.normal.apart)
  constructor
  · intro other member
    have before_ := earlier other member blockHead (List.mem_cons_self ..)
    have start := spanned (List.mem_append_left _ member)
    have := MemoryBlock.span_lt other
    omega
  · intro other member
    have after_ := (List.pairwise_cons.mp later).1 other member
    have start := spanned (List.mem_append_right _ (List.mem_cons_of_mem _ member))
    have := MemoryBlock.span_lt blockHead
    omega

/-- What an operation asks of its arguments. -/
def Operation.Accepted (heap : ExpHeap) : Operation → Prop
  | .allocate _ alignment => ∃ k, 2 ≤ k ∧ k ≤ 30 ∧ (fixAlignment alignment).natAbs = 2 ^ k
  | .free memBlock => ∃ head, InUse heap memBlock head ∧ (head.blockSize = 0 →
      head.alignmentPadding = 0 → ∃ free ∈ heap.freeList,
        free.span.stop = head.address ∨ free.address = memBlock.toNat)
  | .resize memBlock _ => ∃ head, InUse heap memBlock head
  | .setGroupId groupId => groupId ≤ 0xFF
  | _ => True

/-- Nothing can be made of a block only where it is no more than its head. -/
theorem reusable_iff (valid : heap.Valid) {memBlock : U64} {head : MemoryBlock}
    (use : InUse heap memBlock head) : Reusable heap head ↔
      (head.blockSize = 0 → head.alignmentPadding = 0 → ∃ free ∈ heap.freeList,
        free.span.stop = head.address ∨ free.address = memBlock.toNat) := by
  obtain ⟨placed, -⟩ := valid.used head use.member
  obtain ⟨-, start, -, -, four⟩ := use.bounds valid
  have padding := placed.padding
  have low := placed.low
  have begins : head.span.start = head.address - head.alignmentPadding := rfl
  have ends : head.span.stop = head.address + 0x20 + head.blockSize := rfl
  constructor
  · rintro (room | ⟨free, member, touches⟩) empty unpadded
    · omega
    · refine ⟨free, member, touches.imp (fun before => ?_) fun after => ?_⟩
      · omega
      · rw [(valid.free.free free member).span_start] at after
        omega
  · intro others
    rcases Nat.eq_zero_or_pos head.blockSize with empty | positive
    · rcases Nat.eq_zero_or_pos head.alignmentPadding with unpadded | padded
      · obtain ⟨free, member, touches⟩ := others empty unpadded
        refine .inr ⟨free, member, touches.imp (fun before => ?_) fun after => ?_⟩
        · rw [begins, unpadded, Nat.sub_zero]
          exact before
        · rw [(valid.free.free free member).span_start, ends, empty, Nat.add_zero, start]
          exact after
      · exact .inl (by omega)
    · exact .inl (by omega)

/-- In a valid heap an operation ends exactly if its arguments are accepted. A block in use is
accepted by its address, and it can be freed unless it has been made empty, has no padding, and lies
between blocks that are in use. -/
theorem step_ends_iff (valid : heap.Valid) (operation : Operation) :
    (∃ response heap', step heap operation = .ok (response, heap')) ↔ operation.Accepted heap := by
  cases operation with
  | allocate size alignment =>
    constructor
    · rintro ⟨response, heap', done⟩
      rw [step] at done
      cases result : allocateFromExpHeap heap size alignment with
      | error failure => simp [result, Except.map] at done
      | ok both =>
        obtain ⟨k, large, power, abs, -⟩ := allocateFromExpHeap_eq_ok result
        exact ⟨k, large, power, abs⟩
    · rintro ⟨k, large, power, abs⟩
      have low : 2 ^ 2 ≤ 2 ^ k := Nat.pow_le_pow_right (by decide) large
      have high : 2 ^ k ≤ 2 ^ 30 := Nat.pow_le_pow_right (by decide) power
      have mask : 2 ^ k &&& (2 ^ k - 1) = 0 :=
        (Nat.and_sub_one_eq_zero_iff_isPowerOfTwo (by omega)).mpr ⟨k, rfl⟩
      have result : allocateFromExpHeap heap size alignment =
          .ok (allocateFrom heap (allocationSize size) (2 ^ k) (directionOf alignment)) := by
        rw [allocateFromExpHeap]
        simp only [abs]
        rw [if_neg (by omega), if_neg (not_not.mpr mask), if_neg (by rw [minimumAlignment]; omega)]
      rw [step, result]
      exact ⟨_, _, rfl⟩
  | free memBlock =>
    have ends : (∃ response heap', step heap (.free memBlock) = .ok (response, heap')) ↔
        ∃ heap', freeToExpHeap heap memBlock = .ok heap' := by
      rw [step]
      cases freeToExpHeap heap memBlock <;> simp [Except.map]
    rw [ends]
    constructor
    · rintro ⟨heap', done⟩
      obtain ⟨head, use⟩ := exists_inUse valid done
      exact ⟨head, use, (reusable_iff valid use).mp ((freeToExpHeap_eq_ok valid use).mp ⟨_, done⟩)⟩
    · rintro ⟨head, use, reusable⟩
      exact (freeToExpHeap_eq_ok valid use).mpr ((reusable_iff valid use).mpr reusable)
  | resize memBlock size =>
    have ends : (∃ response heap', step heap (.resize memBlock size) = .ok (response, heap')) ↔
        ∃ result, resizeExpHeapMemoryBlock heap memBlock size = .ok result := by
      rw [step]
      cases resizeExpHeapMemoryBlock heap memBlock size <;> simp [Except.map]
    rw [ends]
    constructor
    · rintro ⟨result, done⟩
      exact exists_inUse valid done
    · rintro ⟨head, use⟩
      rw [resizeExpHeapMemoryBlock_of_inUse valid use]
      split
      · exact ⟨_, rfl⟩
      · split <;> exact ⟨_, rfl⟩
  | adjust => exact iff_of_true ⟨_, _, rfl⟩ trivial
  | setMode mode => exact iff_of_true ⟨_, _, rfl⟩ trivial
  | setUseMargins useMargins => exact iff_of_true ⟨_, _, rfl⟩ trivial
  | setGroupId groupId =>
    rw [step]
    split
    · case isTrue large =>
      exact iff_of_false (by simp) (BitVec.not_le.mpr large)
    · case isFalse small => exact iff_of_true ⟨_, _, rfl⟩ (BitVec.not_lt.mp small)

theorem step_ends_iff_onePast :
    (∃ response heap', step onePast (.free 0x10A0) = .ok (response, heap')) ↔
      Operation.Accepted onePast (.free 0x10A0) :=
  step_ends_iff onePast_valid _

/-! ## What a block is resized to -/

/-- What a block is resized to is decided by what is free behind it: it grows into a free block that
is long enough, what it does not need any more is freed where a block can be made of it, and
otherwise nothing changes. -/
theorem resize_outcome (valid : heap.Valid) {memBlock : U64} {head : MemoryBlock}
    (use : InUse heap memBlock head) {n : ℕ}
    (done : resizeExpHeapMemoryBlock heap memBlock size = .ok (n, heap')) :
    let wanted := (Sf.alignUp size 4).toNat
    let grows := ∃ next ∈ heap.freeList, next.span.start = head.span.stop ∧
      memBlock.toNat + wanted ≤ next.span.stop
    let splits := wanted + 0x24 ≤ head.blockSize ∨
      ∃ next ∈ heap.freeList, next.span.start = head.span.stop
    (head.blockSize < wanted → grows →
      wanted ≤ n ∧ n < wanted + 0x24 ∧ Resized heap heap' head n) ∧
    (head.blockSize < wanted → ¬ grows → n = 0 ∧ heap' = heap) ∧
    (wanted < head.blockSize → splits → n = wanted ∧ Resized heap heap' head wanted) ∧
    (wanted ≤ head.blockSize → wanted = head.blockSize ∨ ¬ splits →
      n = head.blockSize ∧ heap' = heap) := by
  have multiple : 4 ∣ (Sf.alignUp size 4).toNat := by
    rw [alignUp_four_toNat]
    omega
  rw [resizeExpHeapMemoryBlock_of_inUse valid use] at done
  intro wanted grows splits
  split at done
  · case isTrue same =>
    obtain ⟨rfl, rfl⟩ := Prod.mk.inj (Except.ok.inj done)
    exact ⟨fun larger => absurd same larger.ne', fun larger => absurd same larger.ne',
      fun smaller => absurd same smaller.ne, fun _ _ => ⟨same, rfl⟩⟩
  · case isFalse different =>
    split at done
    · case isTrue larger =>
      have not_smaller : ¬ wanted ≤ head.blockSize := not_le.mpr larger
      refine ⟨fun _ room => ?_, fun _ none => ?_, fun smaller => absurd smaller.le not_smaller,
        fun smaller => absurd smaller not_smaller⟩
      · rcases growBlock_spec valid use multiple larger (Except.ok.inj done) with
          ⟨-, -, short⟩ | ⟨enough, near, resized, -⟩
        · obtain ⟨next, member, touching, long⟩ := room
          exact absurd long (not_le.mpr (short next member touching))
        · exact ⟨enough, near, resized⟩
      · rcases growBlock_spec valid use multiple larger (Except.ok.inj done) with
          ⟨zero, same, -⟩ | ⟨-, -, -, room⟩
        · exact ⟨zero, same⟩
        · exact absurd room none
    · case isFalse not_larger =>
      have smaller : wanted < head.blockSize := lt_of_le_of_ne (not_lt.mp not_larger) different
      refine ⟨fun larger => absurd larger not_larger, fun larger => absurd larger not_larger,
        fun _ room => ?_, fun _ either => ?_⟩
      · rcases shrinkBlock_spec valid use multiple smaller (Except.ok.inj done) with
          ⟨-, -, short, none⟩ | ⟨rfl, resized, -⟩
        · rcases room with room | ⟨next, member, touching⟩
          · exact absurd short (not_lt.mpr room)
          · exact absurd touching (none next member)
        · exact ⟨rfl, resized⟩
      · rcases shrinkBlock_spec valid use multiple smaller (Except.ok.inj done) with
          ⟨same, same', -, -⟩ | ⟨-, -, room⟩
        · exact ⟨same, same'⟩
        · exact absurd room (either.resolve_left different)

theorem resize_outcome_onePast :
    let head : MemoryBlock := ⟨0x1080, usedBlockMagic, 0x1800, 0x40⟩
    let grown : ExpHeap := ⟨0x1068, 0x2000, [⟨0x1120, freeBlockMagic, 0, 0xEC0⟩],
      [{ head with blockSize := 0x80 }], 0, false, .firstFit⟩
    let grows := ∃ next ∈ onePast.freeList, next.span.start = head.span.stop ∧
      0x10A0 + 0x80 ≤ next.span.stop
    let splits := 0x80 + 0x24 ≤ head.blockSize ∨
      ∃ next ∈ onePast.freeList, next.span.start = head.span.stop
    (0x40 < 0x80 → grows → 0x80 ≤ 0x80 ∧ 0x80 < 0x80 + 0x24 ∧ Resized onePast grown head 0x80) ∧
    (0x40 < 0x80 → ¬ grows → 0x80 = 0 ∧ grown = onePast) ∧
    (0x80 < 0x40 → splits → 0x80 = 0x80 ∧ Resized onePast grown head 0x80) ∧
    (0x80 ≤ 0x40 → 0x80 = 0x40 ∨ ¬ splits → 0x80 = 0x40 ∧ grown = onePast) :=
  @resize_outcome onePast _ 0x80 onePast_valid 0x10A0 _
    ⟨List.mem_singleton_self _, by decide, by decide⟩ _ rfl

end Hakkun.Mem
