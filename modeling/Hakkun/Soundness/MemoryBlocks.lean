import Hakkun.Model.Mem.ExpHeap
import Mathlib.Tactic.IntervalCases

/-! # Memory blocks

What the arithmetic of 64 bits and the attribute bits mean for blocks that lie in an arena below the
end of the address space, and lists of free blocks: they are determined by the addresses that the
blocks take.
-/

namespace Hakkun.Mem

open Math (Extent Canonical cover insertJoined consJoined)

/-! ## Arithmetic -/

theorem wrap_of_lt {value : ℕ} (small : value < 2 ^ 64) : wrap value = value :=
  Nat.mod_eq_of_lt small

theorem getPointerDifference_of_le {start stop : ℕ} (ordered : start ≤ stop)
    (small : stop < 2 ^ 64) : getPointerDifference start stop = stop - start := by
  have split : 2 ^ 64 + stop - start = stop - start + 2 ^ 64 := by omega
  rw [getPointerDifference, wrap, split, Nat.add_mod_right, Nat.mod_eq_of_lt (by omega)]

theorem isTooSmall_iff {region : MemoryRegion} (ordered : region.start ≤ region.stop)
    (small : region.stop < 2 ^ 64) :
    isTooSmall region = true ↔ region.stop < region.start + 0x24 := by
  rw [isTooSmall, getPointerDifference_of_le ordered small, decide_eq_true_iff]
  simp only [sizeofBlockHead, minimumFreeBlockSize]
  omega

/-- Aligning goes to the next multiple of a power of two. -/
theorem alignUp_toNat {value : U64} {k : ℕ} (power : k ≤ 31)
    (small : value.toNat + 2 ^ 31 ≤ 2 ^ 64) :
    (Sf.alignUp value (BitVec.ofNat 64 (2 ^ k))).toNat =
      (value.toNat + (2 ^ k - 1)) / 2 ^ k * 2 ^ k := by
  have bound : 2 ^ k ≤ 2 ^ 31 := Nat.pow_le_pow_right (by decide) power
  have positive := Nat.two_pow_pos k
  have mask : BitVec.ofNat 64 (2 ^ k) - 1 = bits k := by
    rw [← BitVec.toNat_inj, bits_toNat (by omega), BitVec.toNat_sub, BitVec.toNat_ofNat,
      Nat.mod_eq_of_lt (by omega : 2 ^ k < 2 ^ 64)]
    change (2 ^ 64 - 1 + 2 ^ k) % 2 ^ 64 = _
    omega
  rw [Sf.alignUp, mask, and_not_bits_toNat _ (by omega), BitVec.toNat_add, bits_toNat (by omega),
    Nat.mod_eq_of_lt (by omega)]
  have split := Nat.div_add_mod (value.toNat + (2 ^ k - 1)) (2 ^ k)
  rw [Nat.mul_comm] at split
  omega

/-- A size that is close to the end of the address space becomes zero. -/
theorem alignUp_four_toNat (value : U64) : (Sf.alignUp value 4).toNat =
    (value.toNat + 3) % 2 ^ 64 - (value.toNat + 3) % 2 ^ 64 % 4 := by
  have mask : (4 : U64) - 1 = bits 2 := rfl
  rw [Sf.alignUp, mask, and_not_bits_toNat _ (by decide), BitVec.toNat_add]
  rfl

/-- An aligned address is the least multiple that is not below. -/
structure AlignsTo (alignment address aligned : ℕ) : Prop where
  le : address ≤ aligned
  lt : aligned < address + alignment
  dvd : alignment ∣ aligned

theorem alignAddress_spec {alignment address k : ℕ} (power : alignment = 2 ^ k) (bound : k ≤ 31)
    (small : address + 2 ^ 31 ≤ 2 ^ 64) :
    AlignsTo alignment address (alignAddress address alignment) := by
  subst power
  have positive := Nat.two_pow_pos k
  have value : (BitVec.ofNat 64 address).toNat = address := Nat.mod_eq_of_lt (by omega)
  have aligned : alignAddress address (2 ^ k) = (address + (2 ^ k - 1)) / 2 ^ k * 2 ^ k := by
    rw [alignAddress, alignUp_toNat bound (by omega), value]
  have split := Nat.div_add_mod (address + (2 ^ k - 1)) (2 ^ k)
  have rest := Nat.mod_lt (address + (2 ^ k - 1)) positive
  rw [Nat.mul_comm] at split
  rw [aligned]
  exact ⟨by omega, by omega, Nat.dvd_mul_left ..⟩

theorem AlignsTo.le_of_dvd {alignment address aligned other : ℕ}
    (aligns : AlignsTo alignment address aligned) (above : address ≤ other)
    (multiple : alignment ∣ other) : aligned ≤ other := by
  obtain ⟨i, rfl⟩ := aligns.dvd
  obtain ⟨j, rfl⟩ := multiple
  have near := aligns.lt
  apply Nat.mul_le_mul_left
  by_contra beyond
  have step : alignment * (j + 1) ≤ alignment * i := Nat.mul_le_mul_left _ (by omega)
  rw [Nat.mul_add_one] at step
  omega

/-! ## Attributes -/

namespace MemoryBlock

variable {head : MemoryBlock} {arena : Extent ℕ}

@[simp] theorem alignmentPadding_setGroupId (groupId : BitVec 16) :
    (head.setGroupId groupId).alignmentPadding = head.alignmentPadding := by
  rw [alignmentPadding, alignmentPadding, setGroupId]
  congr 1
  apply BitVec.eq_of_getLsbD_eq
  intro i bound
  interval_cases i <;> simp

theorem alignmentPadding_setAlignmentPadding {padding : ℕ} (small : padding < 0x80) :
    (head.setAlignmentPadding (BitVec.ofNat 16 padding)).alignmentPadding = padding := by
  have field (value : BitVec 16) :
      ((head.attributes &&& ~~~(0x7F#32 <<< 8) ||| (value &&& 0x7F).setWidth 32 <<< 8) >>> 8 &&&
        0x7F) = (value &&& 0x7F).setWidth 32 := by
    apply BitVec.eq_of_getLsbD_eq
    intro i bound
    interval_cases i <;> simp
  rw [alignmentPadding, setAlignmentPadding, field, BitVec.toNat_setWidth, BitVec.toNat_and]
  change (padding % 2 ^ 16 &&& (2 ^ 7 - 1)) % 2 ^ 32 = padding
  rw [Nat.and_two_pow_sub_one_eq_mod]
  omega

theorem groupId_setGroupId {groupId : BitVec 16} :
    (head.setGroupId groupId).groupId = groupId &&& 0xFF := by
  rw [MemoryBlock.groupId, setGroupId]
  apply BitVec.eq_of_getLsbD_eq
  intro i bound
  interval_cases i <;> simp

theorem allocationDirection_setAllocationDirection {dir : AllocationDirection}
    {padding groupId : BitVec 16} :
    ((head.setAllocationDirection dir).setAlignmentPadding padding
      |>.setGroupId groupId).allocationDirection = dir := by
  have field : ((head.setAllocationDirection dir).setAlignmentPadding padding
      |>.setGroupId groupId).attributes >>> 15 &&& 1 = if dir = .front then 0 else 1 := by
    apply BitVec.eq_of_getLsbD_eq
    intro i bound
    cases dir <;> interval_cases i <;>
      simp [setAllocationDirection, setAlignmentPadding, setGroupId]
  rw [allocationDirection, field]
  cases dir <;> rfl

/-! ## Places -/

/-- The addresses that a block takes, with its padding and its head. -/
def span (head : MemoryBlock) : Extent ℕ :=
  ⟨head.address - head.alignmentPadding, head.address + 0x20 + head.blockSize⟩

/-- The addresses that a block is for. -/
def payload (head : MemoryBlock) : Extent ℕ :=
  ⟨head.address + 0x20, head.address + 0x20 + head.blockSize⟩

theorem span_lt (head : MemoryBlock) : head.span.start < head.span.stop := by
  change head.address - _ < head.address + 0x20 + _
  omega

theorem address_mem_span (head : MemoryBlock) : head.address ∈ head.span.toSet := by
  refine ⟨Nat.sub_le .., ?_⟩
  change head.address < head.address + 0x20 + _
  omega

/-- A block that lies in an arena, in steps of four bytes. -/
structure Placed (arena : Extent ℕ) (head : MemoryBlock) : Prop where
  low : arena.start + head.alignmentPadding ≤ head.address
  high : head.address + 0x20 + head.blockSize ≤ arena.stop
  address : 4 ∣ head.address
  size : 4 ∣ head.blockSize
  padding : 4 ∣ head.alignmentPadding

namespace Placed

variable (placed : head.Placed arena)

include placed

theorem le_start : arena.start ≤ head.span.start := by
  have := placed.low
  change arena.start ≤ head.address - _
  omega

variable (small : arena.stop < 2 ^ 64)

include small

theorem start_eq : head.start = head.address + 0x20 := by
  have := placed.high
  rw [start, sizeofBlockHead, wrap_of_lt (by omega)]

theorem stop_eq : head.stop = head.span.stop := by
  have := placed.high
  rw [stop, placed.start_eq small, wrap_of_lt (by omega)]
  rfl

theorem region_eq : head.region = head.span := by
  have low := placed.low
  have high := placed.high
  rw [region, placed.stop_eq small, getPointerDifference_of_le (by omega) (by omega)]
  rfl

end Placed

/-- What is written to the head of a free block. -/
structure IsFree (head : MemoryBlock) : Prop where
  magic : head.magic = freeBlockMagic
  attributes : head.attributes = 0
  size : 4 ≤ head.blockSize

namespace IsFree

theorem alignmentPadding_eq (free : head.IsFree) : head.alignmentPadding = 0 := by
  rw [alignmentPadding, free.attributes]
  rfl

theorem span_start (free : head.IsFree) : head.span.start = head.address := by
  change head.address - head.alignmentPadding = head.address
  rw [free.alignmentPadding_eq, Nat.sub_zero]

theorem room (free : head.IsFree) : head.span.start + 0x24 ≤ head.span.stop := by
  have size := free.size
  rw [free.span_start]
  change head.address + 0x24 ≤ head.address + 0x20 + _
  omega

end IsFree

end MemoryBlock

/-- A region that a free block can be made of. -/
structure Usable (arena : Extent ℕ) (region : MemoryRegion) : Prop where
  low : arena.start ≤ region.start
  high : region.stop ≤ arena.stop
  start : 4 ∣ region.start
  stop : 4 ∣ region.stop
  room : region.start + 0x24 ≤ region.stop

section Initialize

variable {arena : Extent ℕ} {region : MemoryRegion}

theorem initializeMemoryBlock_eq {magic : BitVec 16} (ordered : region.start + 0x20 ≤ region.stop)
    (small : region.stop < 2 ^ 64) :
    initializeMemoryBlock region magic =
      ⟨region.start, magic, 0, region.stop - (region.start + 0x20)⟩ := by
  rw [initializeMemoryBlock, sizeofBlockHead, wrap_of_lt (by omega),
    getPointerDifference_of_le (by omega) small]

variable (usable : Usable arena region) (small : arena.stop < 2 ^ 64)

include usable small

theorem Usable.isFree : (initializeFreeMemoryBlock region).IsFree := by
  have room := usable.room
  have high := usable.high
  rw [initializeFreeMemoryBlock, initializeMemoryBlock_eq (by omega) (by omega)]
  exact ⟨rfl, rfl, by change 4 ≤ region.stop - _; omega⟩

theorem Usable.span_eq : (initializeFreeMemoryBlock region).span = region := by
  have start := (usable.isFree small).span_start
  have room := usable.room
  have high := usable.high
  rw [initializeFreeMemoryBlock, initializeMemoryBlock_eq (by omega) (by omega)] at start ⊢
  apply Extent.ext
  · exact start
  · change region.start + 0x20 + (region.stop - (region.start + 0x20)) = region.stop
    omega

theorem Usable.placed : (initializeFreeMemoryBlock region).Placed arena := by
  have unpadded := (usable.isFree small).alignmentPadding_eq
  have room := usable.room
  have high := usable.high
  have start := usable.start
  have stop := usable.stop
  refine ⟨?_, (congrArg Extent.stop (usable.span_eq small)).trans_le high, start, ?_, ?_⟩
  · rw [unpadded]
    exact usable.low
  · rw [initializeFreeMemoryBlock, initializeMemoryBlock_eq (by omega) (by omega)]
    change 4 ∣ region.stop - (region.start + 0x20)
    omega
  · rw [unpadded]
    exact Nat.dvd_zero 4

end Initialize

/-! ## Free blocks -/

/-- The free blocks of an arena: they ascend, and no two of them touch. -/
structure FreeBlocks (arena : Extent ℕ) (blocks : List MemoryBlock) : Prop where
  normal : Canonical (blocks.map MemoryBlock.span)
  placed : ∀ head ∈ blocks, head.Placed arena
  free : ∀ head ∈ blocks, head.IsFree

/-- A set of addresses that some blocks take. -/
def taken (blocks : List MemoryBlock) : Set ℕ := cover (blocks.map MemoryBlock.span)

namespace FreeBlocks

variable {arena : Extent ℕ} {blocks others : List MemoryBlock} {head : MemoryBlock}

theorem usable (tidy : FreeBlocks arena blocks) (member : head ∈ blocks) :
    Usable arena head.span := by
  have placed := tidy.placed head member
  have free := tidy.free head member
  have low := placed.le_start
  refine ⟨low, placed.high, ?_, ?_, free.room⟩
  · rw [free.span_start]
    exact placed.address
  · have address := placed.address
    have size := placed.size
    change 4 ∣ head.address + 0x20 + head.blockSize
    omega

theorem initialize_span (tidy : FreeBlocks arena blocks) (small : arena.stop < 2 ^ 64)
    (member : head ∈ blocks) : initializeFreeMemoryBlock head.span = head := by
  have usable := tidy.usable member
  have room := usable.room
  have high := usable.high
  have free := tidy.free head member
  rw [initializeFreeMemoryBlock, initializeMemoryBlock_eq (by omega) (by omega), free.span_start]
  have size : head.span.stop - (head.address + 0x20) = head.blockSize := Nat.add_sub_cancel_left ..
  rw [size, ← free.magic, ← free.attributes]

theorem map_initialize (tidy : FreeBlocks arena blocks) (small : arena.stop < 2 ^ 64) :
    (blocks.map MemoryBlock.span).map initializeFreeMemoryBlock = blocks := by
  rw [List.map_map]
  exact (List.map_congr_left fun head member => tidy.initialize_span small member).trans
    (List.map_id _)

/-- Free blocks are determined by the addresses that they take. -/
theorem eq_of_taken_eq (tidy : FreeBlocks arena blocks) (tidy' : FreeBlocks arena others)
    (small : arena.stop < 2 ^ 64) (same : taken blocks = taken others) : blocks = others := by
  have spans := tidy.normal.eq_of_cover_eq tidy'.normal same
  rw [← tidy.map_initialize small, spans, tidy'.map_initialize small]

/-- Free blocks are made of usable regions that do not touch. -/
theorem of_regions {regions : List MemoryRegion} (normal : Canonical regions)
    (usable : ∀ region ∈ regions, Usable arena region) (small : arena.stop < 2 ^ 64) :
    FreeBlocks arena (regions.map initializeFreeMemoryBlock) ∧
      (regions.map initializeFreeMemoryBlock).map MemoryBlock.span = regions := by
  have spans : (regions.map initializeFreeMemoryBlock).map MemoryBlock.span = regions := by
    rw [List.map_map]
    exact (List.map_congr_left fun region member => (usable region member).span_eq small).trans
      (List.map_id _)
  refine ⟨⟨spans.symm ▸ normal, fun head member => ?_, fun head member => ?_⟩, spans⟩
  · obtain ⟨region, there, rfl⟩ := List.mem_map.mp member
    exact (usable region there).placed small
  · obtain ⟨region, there, rfl⟩ := List.mem_map.mp member
    exact (usable region there).isFree small

end FreeBlocks

end Hakkun.Mem
