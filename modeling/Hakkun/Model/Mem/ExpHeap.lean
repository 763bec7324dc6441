import Hakkun.Math.IntervalList
import Hakkun.Model.Sf.Utils

/-! # Expanded heaps

Translated from `lmem_impl_exp_heap.cpp` of the ExpHeap add-on, for heaps without debug fill.
Addresses and sizes are natural numbers, and the arithmetic on them is that of 64 bits. An iterator
of a list of blocks is a place in it. A block that is given by its address is looked for in the
lists; where there is none, it is not known what is read as its head.
-/

namespace Hakkun.Mem

open Math (Extent)
open Sf (alignUp)

/-- Why an operation does not return. -/
inductive Failure where
  | assertion (condition : String)
  /-- What is read or computed is not defined. -/
  | undefined
  deriving DecidableEq

inductive AllocationMode where
  | firstFit
  | bestFit
  deriving DecidableEq

inductive AllocationDirection where
  | front
  | back
  deriving DecidableEq

def freeBlockMagic : BitVec 16 := 0x4652
def usedBlockMagic : BitVec 16 := 0x5544

def minimumAlignment : ℕ := 4
def maximumPaddingalignment : ℕ := 0x80
def minimumFreeBlockSize : ℕ := 4

/-- `sizeof(HeapHead)`, which ends with the head of the implementation. -/
def sizeofHeapHead : ℕ := 0x68

/-- `sizeof(ExpHeapMemoryBlockHead)`. -/
def sizeofBlockHead : ℕ := 0x20

/-! ## Arithmetic -/

def wrap (value : ℕ) : ℕ := value % 2 ^ 64

def getPointerDifference (start stop : ℕ) : ℕ := wrap (2 ^ 64 + stop - start)

/-- `alignUp` at addresses. -/
def alignAddress (address alignment : ℕ) : ℕ :=
  (alignUp (BitVec.ofNat 64 address) (BitVec.ofNat 64 alignment)).toNat

/-- `alignDown`. -/
def alignDown (from_ alignment : U64) : U64 := from_ &&& ~~~(alignment - 1)

/-! ## Blocks -/

abbrev MemoryRegion := Extent ℕ

/-- An `ExpHeapMemoryBlockHead` and where it is. -/
structure MemoryBlock where
  address : ℕ
  magic : BitVec 16
  attributes : U32
  blockSize : ℕ
  deriving DecidableEq

namespace MemoryBlock

/-- `GetMemoryBlockStart`. -/
def start (head : MemoryBlock) : ℕ := wrap (head.address + sizeofBlockHead)

/-- `GetMemoryBlockEnd`. -/
def stop (head : MemoryBlock) : ℕ := wrap (head.start + head.blockSize)

def alignmentPadding (head : MemoryBlock) : ℕ := (head.attributes >>> 8 &&& 0x7F).toNat

def setAlignmentPadding (head : MemoryBlock) (padding : BitVec 16) : MemoryBlock :=
  { head with
    attributes := head.attributes &&& ~~~(0x7F#32 <<< 8) ||| (padding &&& 0x7F).setWidth 32 <<< 8 }

def groupId (head : MemoryBlock) : BitVec 16 := (head.attributes &&& 0xFF).setWidth 16

def setGroupId (head : MemoryBlock) (groupId : BitVec 16) : MemoryBlock :=
  { head with attributes := head.attributes &&& ~~~0xFF#32 ||| (groupId &&& 0xFF).setWidth 32 }

def allocationDirection (head : MemoryBlock) : AllocationDirection :=
  if head.attributes >>> 15 &&& 1 = 0 then .front else .back

def setAllocationDirection (head : MemoryBlock) (dir : AllocationDirection) : MemoryBlock :=
  let bit : U32 := match dir with
    | .front => 0
    | .back => 1
  { head with attributes := head.attributes &&& ~~~0x8000#32 ||| bit <<< 15 }

/-- `GetMemoryBlockRegion`. -/
def region (head : MemoryBlock) : MemoryRegion :=
  ⟨getPointerDifference head.alignmentPadding head.address, head.stop⟩

end MemoryBlock

/-- `GetHeadForMemoryBlock`. -/
def getHeadForMemoryBlock (block : ℕ) : ℕ := getPointerDifference sizeofBlockHead block

def initializeMemoryBlock (region : MemoryRegion) (magic : BitVec 16) : MemoryBlock where
  address := region.start
  magic := magic
  attributes := 0
  blockSize := getPointerDifference (wrap (region.start + sizeofBlockHead)) region.stop

def initializeFreeMemoryBlock (region : MemoryRegion) : MemoryBlock :=
  initializeMemoryBlock region freeBlockMagic

def initializeUsedMemoryBlock (region : MemoryRegion) : MemoryBlock :=
  initializeMemoryBlock region usedBlockMagic

/-- Whether a region is too small for a block. -/
def isTooSmall (region : MemoryRegion) : Bool :=
  getPointerDifference region.start region.stop < sizeofBlockHead + minimumFreeBlockSize

/-- The blocks before and after the one at an address: what `erase` leaves on both sides of the
iterator that it returns. -/
def around (address : ℕ) (blocks : List MemoryBlock) : List MemoryBlock × List MemoryBlock :=
  (blocks.takeWhile (·.address ≠ address), (blocks.dropWhile (·.address ≠ address)).tail)

/-! ## Heaps -/

/-- What is used of a `HeapHead`. -/
structure ExpHeap where
  heapStart : ℕ
  heapEnd : ℕ
  freeList : List MemoryBlock
  usedList : List MemoryBlock
  groupId : BitVec 16
  useAlignmentMargins : Bool
  mode : AllocationMode
  deriving DecidableEq

/-- `InitializeExpHeap`. -/
def initializeExpHeap (start stop : ℕ) : ExpHeap where
  heapStart := wrap (start + sizeofHeapHead)
  heapEnd := stop
  freeList := [initializeFreeMemoryBlock ⟨wrap (start + sizeofHeapHead), stop⟩]
  usedList := []
  groupId := 0
  useAlignmentMargins := false
  mode := .firstFit

def createExpHeap (address size : U64) : Option ExpHeap :=
  let uptrEnd := (alignDown (address + size) 4).toNat
  let uptrStart := (alignUp address 4).toNat
  if uptrStart > uptrEnd ∨ isTooSmall ⟨uptrStart, uptrEnd⟩ then none
  else some (initializeExpHeap uptrStart uptrEnd)

/-! ## Coalescing -/

/-- The block after a freed region, if it starts where the region ends, becomes part of it. -/
def joinNext (region : MemoryRegion) : List MemoryBlock → MemoryRegion × List MemoryBlock
  | [] => (region, [])
  | next :: after =>
    if next.address = region.stop then (⟨region.start, next.stop⟩, after)
    else (region, next :: after)

/-- The same of the block before, for what the region has become. -/
def joinPrev (region freeRegion : MemoryRegion) (before : List MemoryBlock) :
    MemoryRegion × List MemoryBlock :=
  match before.getLast? with
  | none => (freeRegion, before)
  | some prev =>
    if prev.stop = region.start then (⟨prev.address, freeRegion.stop⟩, before.dropLast)
    else (freeRegion, before)

/-- `CoalesceFreedRegion`; what it returns, and the list of free blocks after it. -/
def coalesceFreedRegion (freeList : List MemoryBlock) (region : MemoryRegion) :
    Bool × List MemoryBlock :=
  let before := freeList.takeWhile (·.address < region.start)
  let (freeRegion, after) := joinNext region (freeList.dropWhile (·.address < region.start))
  let (freeRegion, before) := joinPrev region freeRegion before
  if isTooSmall freeRegion then (false, before ++ after)
  else (true, before ++ initializeFreeMemoryBlock freeRegion :: after)

/-! ## Allocation -/

/-- Whether a margin of a block that is allocated in some direction is not made a block. -/
def ExpHeap.dropsMargin (heap : ExpHeap) (direction side : AllocationDirection)
    (margin : MemoryRegion) : Bool :=
  isTooSmall margin || (direction = side && !heap.useAlignmentMargins &&
    getPointerDifference margin.start margin.stop < maximumPaddingalignment)

/-- `ConvertFreeBlockToUsedBlock`. -/
def convertFreeBlockToUsedBlock (heap : ExpHeap) (blockHead : MemoryBlock) (block size : ℕ)
    (direction : AllocationDirection) : ExpHeap :=
  let usedRegion : MemoryRegion := ⟨getHeadForMemoryBlock block, wrap (block + size)⟩
  let front : MemoryRegion := ⟨blockHead.region.start, usedRegion.start⟩
  let back : MemoryRegion := ⟨usedRegion.stop, blockHead.region.stop⟩
  let (before, after) := around blockHead.address heap.freeList
  let (frontEnd, frontBlocks) :=
    if heap.dropsMargin direction .front front then (front.start, [])
    else (front.stop, [initializeFreeMemoryBlock front])
  let backBlocks :=
    if heap.dropsMargin direction .back back then [] else [initializeFreeMemoryBlock back]
  let padding := BitVec.ofNat 16 (getPointerDifference frontEnd usedRegion.start)
  let usedBlock := initializeUsedMemoryBlock usedRegion
    |>.setAllocationDirection direction |>.setAlignmentPadding padding |>.setGroupId heap.groupId
  { heap with
    freeList := before ++ (frontBlocks ++ backBlocks ++ after)
    usedList := heap.usedList ++ [usedBlock] }

/-- The loop over the free blocks, with what is found so far. -/
def chooseBlock (isFirstFit : Bool) (size alignment : ℕ) :
    List MemoryBlock → Option (MemoryBlock × ℕ) → ℕ → Option (MemoryBlock × ℕ)
  | [], found, _ => found
  | block :: rest, found, bestSize =>
    let blockStart := alignAddress block.start alignment
    let blockOffset := getPointerDifference block.start blockStart
    if block.blockSize ≥ wrap (size + blockOffset) ∧ bestSize > block.blockSize then
      if isFirstFit ∨ block.blockSize = size then some (block, blockStart)
      else chooseBlock isFirstFit size alignment rest (some (block, blockStart)) block.blockSize
    else chooseBlock isFirstFit size alignment rest found bestSize

/-- The free blocks in the order of an allocation. -/
def ExpHeap.freeBlocks (heap : ExpHeap) : AllocationDirection → List MemoryBlock
  | .front => heap.freeList
  | .back => heap.freeList.reverse

/-- What the loop finds. -/
def ExpHeap.findBlock (heap : ExpHeap) (size alignment : ℕ) (direction : AllocationDirection) :
    Option (MemoryBlock × ℕ) :=
  chooseBlock (heap.mode = .firstFit) size alignment (heap.freeBlocks direction) none (2 ^ 64 - 1)

/-- `AllocateFromHead` and `AllocateFromTail`. -/
def allocateFrom (heap : ExpHeap) (size alignment : ℕ) (direction : AllocationDirection) :
    Option ℕ × ExpHeap :=
  match heap.findBlock size alignment direction with
  | none => (none, heap)
  | some (blockHead, block) =>
    (some block, convertFreeBlockToUsedBlock heap blockHead block size direction)

/-- An `s32` with the alignments below 4 fixed up. -/
def fixAlignment (alignment : BitVec 32) : ℤ :=
  if alignment = 1 ∨ alignment = 2 then 4
  else if alignment = -1 ∨ alignment = -2 then -4
  else alignment.toInt

def directionOf (alignment : BitVec 32) : AllocationDirection :=
  if fixAlignment alignment ≥ 0 then .front else .back

/-- The size of a block that is allocated for a size. -/
def allocationSize (size : U64) : ℕ := (alignUp (if size = 0 then 1 else size) 4).toNat

def allocateFromExpHeap (heap : ExpHeap) (size : U64) (alignment : BitVec 32) :
    Except Failure (Option ℕ × ExpHeap) :=
  let absAlignment := (fixAlignment alignment).natAbs
  -- The absolute value of the least number is not one.
  if absAlignment = 2 ^ 31 then .error .undefined
  else if absAlignment &&& (absAlignment - 1) ≠ 0 then
    .error (.assertion "(abs_alignment & (abs_alignment - 1)) == 0")
  else if absAlignment < minimumAlignment then
    .error (.assertion "MinimumAlignment <= static_cast<size_t>(abs_alignment)")
  else
    .ok (allocateFrom heap (allocationSize size) absAlignment (directionOf alignment))

/-! ## Blocks in use -/

/-- The head of a block that `IsValidUsedMemoryBlock`. -/
def usedMemoryBlock (heap : ExpHeap) (memBlock : U64) : Except Failure MemoryBlock :=
  let block := memBlock.toNat
  let invalid := .error (.assertion "IsValidUsedMemoryBlock(handle, mem_block)")
  if block < heap.heapStart ∨ heap.heapEnd ≤ block then invalid
  else
    match (heap.usedList ++ heap.freeList).find? (·.address = getHeadForMemoryBlock block) with
    | none => .error .undefined
    | some head =>
      if head.magic ≠ usedBlockMagic then invalid
      else if wrap (block + head.blockSize) > heap.heapEnd then invalid
      else .ok head

def freeToExpHeap (heap : ExpHeap) (memBlock : U64) : Except Failure ExpHeap := do
  let block ← usedMemoryBlock heap memBlock
  let usedList := heap.usedList.eraseP (·.address = block.address)
  let (coalesced, freeList) := coalesceFreedRegion heap.freeList block.region
  if coalesced then .ok { heap with freeList, usedList }
  else .error (.assertion "coalesced")

/-- A change of the size of a block in a list. -/
def setBlockSize (address blockSize : ℕ) (blocks : List MemoryBlock) : List MemoryBlock :=
  blocks.map fun block => if block.address = address then { block with blockSize } else block

/-- What makes a block in use bigger. -/
def growBlock (heap : ExpHeap) (block : MemoryBlock) (memBlock size : ℕ) : ℕ × ExpHeap :=
  match heap.freeList.find? (·.address = block.stop) with
  | none => (0, heap)
  | some next =>
    if size > wrap (block.blockSize + sizeofBlockHead + next.blockSize) then (0, heap)
    else
      let (before, after) := around next.address heap.freeList
      let kept : MemoryRegion := ⟨wrap (memBlock + size), next.region.stop⟩
      let (start, freeBlocks) :=
        if isTooSmall kept then (kept.stop, []) else (kept.start, [initializeFreeMemoryBlock kept])
      let blockSize := getPointerDifference memBlock start
      (blockSize, { heap with
        freeList := before ++ (freeBlocks ++ after)
        usedList := setBlockSize block.address blockSize heap.usedList })

/-- What makes a block in use smaller; the size is restored when nothing is freed. -/
def shrinkBlock (heap : ExpHeap) (block : MemoryBlock) (memBlock size : ℕ) : ℕ × ExpHeap :=
  let (coalesced, freeList) :=
    coalesceFreedRegion heap.freeList ⟨wrap (memBlock + size), block.stop⟩
  let blockSize := if coalesced then size else block.blockSize
  (blockSize, { heap with
    freeList
    usedList := setBlockSize block.address blockSize heap.usedList })

def resizeExpHeapMemoryBlock (heap : ExpHeap) (memBlock size : U64) :
    Except Failure (ℕ × ExpHeap) := do
  let block ← usedMemoryBlock heap memBlock
  let size := (alignUp size 4).toNat
  if size = block.blockSize then .ok (size, heap)
  else if size > block.blockSize then .ok (growBlock heap block memBlock.toNat size)
  else .ok (shrinkBlock heap block memBlock.toNat size)

/-! ## Other operations -/

/-- A `MemoryRange`. -/
structure MemoryRange where
  address : ℕ
  size : ℕ

def adjustExpHeap (heap : ExpHeap) : MemoryRange × ExpHeap :=
  match heap.freeList.getLast? with
  | none => (⟨heap.heapEnd, 0⟩, heap)
  | some block =>
    if block.stop ≠ heap.heapEnd then (⟨heap.heapEnd, 0⟩, heap)
    else
      let freedSize := wrap (block.blockSize + sizeofBlockHead)
      let heapEnd := getPointerDifference freedSize heap.heapEnd
      (⟨heapEnd, freedSize⟩, { heap with freeList := heap.freeList.dropLast, heapEnd })

def getExpHeapTotalFreeSize (heap : ExpHeap) : ℕ :=
  heap.freeList.foldl (fun totalSize block => wrap (totalSize + block.blockSize)) 0

/-- A turn of the loop of `GetExpHeapAllocatableSize`. -/
def allocatableTurn (alignment : ℕ) (best : ℕ × ℕ) (block : MemoryBlock) : ℕ × ℕ :=
  let (maxSize, minOffset) := best
  let blockStart := alignAddress block.start alignment
  if blockStart < block.stop then
    let blockSize := getPointerDifference blockStart block.stop
    let offset := getPointerDifference block.start blockStart
    if blockSize > maxSize ∨ (blockSize = maxSize ∧ offset < minOffset) then (blockSize, offset)
    else best
  else best

/-- The alignment is taken by its absolute value. -/
def getExpHeapAllocatableSize (heap : ExpHeap) (alignment : ℕ) : ℕ :=
  (heap.freeList.foldl (allocatableTurn alignment) (0, 2 ^ 64 - 1)).1

/-- The addresses that `VisitExpHeapAllocatedBlocks` calls the visitor with. -/
def visitExpHeapAllocatedBlocks (heap : ExpHeap) : List ℕ := heap.usedList.map MemoryBlock.start

/-! ## Runs -/

inductive Operation where
  | allocate (size : U64) (alignment : BitVec 32)
  | free (memBlock : U64)
  | resize (memBlock size : U64)
  | adjust
  | setMode (mode : AllocationMode)
  | setUseMargins (useMargins : Bool)
  | setGroupId (groupId : BitVec 16)

/-- What an operation returns. -/
inductive Response where
  | pointer (block : Option ℕ)
  | size (blockSize : ℕ)
  | range (freed : MemoryRange)
  | mode (old : AllocationMode)
  | margins (old : Bool)
  | group (old : BitVec 16)
  | done

def step (heap : ExpHeap) : Operation → Except Failure (Response × ExpHeap)
  | .allocate size alignment => (allocateFromExpHeap heap size alignment).map fun (block, heap) =>
    (.pointer block, heap)
  | .free memBlock => (freeToExpHeap heap memBlock).map fun heap => (.done, heap)
  | .resize memBlock size => (resizeExpHeapMemoryBlock heap memBlock size).map fun (size, heap) =>
    (.size size, heap)
  | .adjust => let (freed, heap) := adjustExpHeap heap
    .ok (.range freed, heap)
  | .setMode mode => .ok (.mode heap.mode, { heap with mode })
  | .setUseMargins useAlignmentMargins =>
    .ok (.margins heap.useAlignmentMargins, { heap with useAlignmentMargins })
  | .setGroupId groupId =>
    if groupId > 0xFF then .error (.assertion "group_id <= MaxGroupId")
    else .ok (.group heap.groupId, { heap with groupId })

/-- The operations one after the other, with what they return. -/
def run (heap : ExpHeap) : List Operation → Except Failure (List Response × ExpHeap)
  | [] => .ok ([], heap)
  | operation :: rest => do
    let (response, heap) ← step heap operation
    let (responses, heap) ← run heap rest
    .ok (response :: responses, heap)

end Hakkun.Mem
