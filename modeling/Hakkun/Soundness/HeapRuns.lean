import Hakkun.Math.IntervalList
import Hakkun.Soundness.HeapBlocksInUse

/-! # Runs of a heap

What a client sees of a heap are the blocks that it has and where the heap ends. A heap is created
valid exactly if there is room for a block after its head, and from then on every operation does to
the blocks of the client what it is for.
-/

namespace Hakkun.Mem

open Math (Extent Canonical cover Fresh Exclusive)

/-! ## Creation -/

section Creation

variable {address size : U64} {heap : ExpHeap}

theorem createExpHeap_eq_some (created : createExpHeap address size = some heap)
    (small : address.toNat + size.toNat + 2 ^ 31 ≤ 2 ^ 64) : ∃ start stop,
      heap = initializeExpHeap start stop ∧ address.toNat ≤ start ∧
        stop ≤ address.toNat + size.toNat ∧ start + 0x24 ≤ stop ∧ 4 ∣ start ∧ 4 ∣ stop := by
  have stop : (alignDown (address + size) 4).toNat =
      address.toNat + size.toNat - (address.toNat + size.toNat) % 4 := by
    have mask : (4 : U64) - 1 = bits 2 := rfl
    rw [alignDown, mask, and_not_bits_toNat _ (by decide), BitVec.toNat_add,
      Nat.mod_eq_of_lt (by omega)]
    rfl
  have start := alignUp_four_toNat address
  rw [createExpHeap, stop] at created
  split at created
  · cases created
  · case isFalse kept =>
    obtain ⟨ordered, large⟩ := not_or.mp kept
    rw [isTooSmall_iff (not_lt.mp ordered) (by simp only; omega)] at large
    simp only at large
    refine ⟨_, _, (Option.some.inj created).symm, ?_, ?_, ?_, ?_, ?_⟩ <;> omega

variable (created : createExpHeap address size = some heap)
  (small : address.toNat + size.toNat + 2 ^ 31 ≤ 2 ^ 64)

include created small

/-- What is known of a heap that has been created with room for a block. -/
theorem valid_of_createExpHeap (room : heap.heapStart + 0x24 ≤ heap.heapEnd) :
    heap.Valid ∧ heap.usedList = [] ∧ taken heap.freeList = heap.arena.toSet := by
  obtain ⟨start, stop, rfl, low, high, large, four, four'⟩ := createExpHeap_eq_some created small
  have begins : (initializeExpHeap start stop).heapStart = start + 0x68 :=
    wrap_of_lt (by simp only [sizeofHeapHead]; omega)
  have ends : (initializeExpHeap start stop).heapEnd = stop := rfl
  rw [begins, ends] at room
  have arena : (initializeExpHeap start stop).arena = ⟨start + 0x68, stop⟩ :=
    Extent.ext begins ends
  have blocks : (initializeExpHeap start stop).freeList =
      [(⟨start + 0x68, stop⟩ : MemoryRegion)].map initializeFreeMemoryBlock := by
    rw [List.map_singleton, ← begins]
    rfl
  have normal : Canonical [(⟨start + 0x68, stop⟩ : MemoryRegion)] :=
    Math.Canonical.cons_iff.mpr ⟨by simp only; omega, by simp, .nil⟩
  have usable : ∀ part ∈ [(⟨start + 0x68, stop⟩ : MemoryRegion)],
      Usable ⟨start + 0x68, stop⟩ part := fun part member => by
    obtain rfl := List.mem_singleton.mp member
    exact ⟨le_rfl, le_rfl, by simp only; omega, four', by simp only; omega⟩
  obtain ⟨free, spans⟩ := FreeBlocks.of_regions normal usable (by simp only; omega)
  rw [← blocks] at free spans
  refine ⟨⟨by omega, by omega, arena ▸ free, ?_, .nil, ?_⟩, rfl, ?_⟩
  · exact fun head member => absurd member List.not_mem_nil
  · exact fun head _ other member => absurd member List.not_mem_nil
  · rw [taken, spans, arena, Math.cover_cons, Math.cover_nil, Set.union_empty]

/-- Without room even for the head of a block, the size of the first block has wrapped. -/
theorem allocate_of_cramped (cramped : heap.heapEnd < heap.heapStart + 0x20) {request : U64}
    (small' : request.toNat + 0x68 ≤ 2 ^ 64) :
    ∃ heap', allocateFromExpHeap heap request 4 = .ok (some (heap.heapStart + 0x20), heap') := by
  obtain ⟨start, stop, rfl, low, high, large, four, four'⟩ := createExpHeap_eq_some created small
  have begins : (initializeExpHeap start stop).heapStart = start + 0x68 :=
    wrap_of_lt (by simp only [sizeofHeapHead]; omega)
  have ends : (initializeExpHeap start stop).heapEnd = stop := rfl
  rw [begins, ends] at cramped
  obtain ⟨block, first⟩ : ∃ block, block = initializeFreeMemoryBlock ⟨start + 0x68, stop⟩ :=
    ⟨_, rfl⟩
  have blocks : (initializeExpHeap start stop).freeList = [block] := by
    rw [first, ← begins]
    rfl
  have address : block.start = start + 0x88 := by
    rw [first]
    exact wrap_of_lt (show start + 0x68 + 0x20 < 2 ^ 64 by omega)
  have blockSize : block.blockSize = 2 ^ 64 + stop - (start + 0x88) := by
    rw [first]
    change getPointerDifference (wrap (start + 0x68 + 0x20)) stop = _
    rw [wrap_of_lt (by omega), getPointerDifference, wrap, Nat.mod_eq_of_lt (by omega)]
  have aligned : alignAddress (start + 0x88) 4 = start + 0x88 := by
    have multiple := alignUp_four_toNat (BitVec.ofNat 64 (start + 0x88))
    rw [BitVec.toNat_ofNat, Nat.mod_eq_of_lt (by omega : start + 0x88 < 2 ^ 64)] at multiple
    exact multiple.trans (by omega)
  have bound : allocationSize request ≤ request.toNat + 4 := by
    rw [allocationSize_eq]
    rcases eq_or_ne request 0 with rfl | nonzero
    · decide
    · rw [if_neg nonzero]
      omega
  have found : (initializeExpHeap start stop).findBlock (allocationSize request) 4 .front =
      some (block, start + 0x88) := by
    change chooseBlock true _ _ (initializeExpHeap start stop).freeList none _ = _
    rw [blocks, chooseBlock, address, aligned, getPointerDifference_of_le le_rfl (by omega),
      Nat.sub_self, Nat.add_zero, blockSize, wrap_of_lt (by omega), if_pos (by omega),
      if_pos (.inl rfl)]
  rw [begins]
  refine ⟨convertFreeBlockToUsedBlock (initializeExpHeap start stop) block (start + 0x88)
    (allocationSize request) .front, ?_⟩
  change Except.ok (allocateFrom _ (allocationSize request) 4 .front) = _
  rw [allocateFrom, found]

end Creation

/-- The operations for which no size wraps. -/
def Operation.Bounded : Operation → Prop
  | .allocate size alignment => InRange size alignment
  | _ => True

/-- What an operation does to a valid heap. -/
inductive Change (heap : ExpHeap) : Operation → Response → ExpHeap → Prop
  | granted {size : U64} {alignment : BitVec 32} {block : ℕ} {blockHead used : MemoryBlock}
      {heap' : ExpHeap} (enough : size.toNat ≤ allocationSize size)
      (granted : Granted heap heap' (allocationSize size) (fixAlignment alignment).natAbs
        (directionOf alignment) block blockHead used) :
    Change heap (.allocate size alignment) (.pointer (some block)) heap'
  | refused {size : U64} {alignment : BitVec 32}
      (nothing : heap.findBlock (allocationSize size) (fixAlignment alignment).natAbs
        (directionOf alignment) = none) :
    Change heap (.allocate size alignment) (.pointer none) heap
  | freed {memBlock : U64} {head : MemoryBlock} {heap' : ExpHeap} (use : InUse heap memBlock head)
      (freed : Freed heap heap' head) : Change heap (.free memBlock) .done heap'
  | resized {memBlock size : U64} {head : MemoryBlock} {blockSize : ℕ} {heap' : ExpHeap}
      (use : InUse heap memBlock head) (enough : (Sf.alignUp size 4).toNat ≤ blockSize)
      (resized : Resized heap heap' head blockSize) :
    Change heap (.resize memBlock size) (.size blockSize) heap'
  | kept {memBlock size : U64} {head : MemoryBlock} (use : InUse heap memBlock head)
      (larger : head.blockSize < (Sf.alignUp size 4).toNat) :
    Change heap (.resize memBlock size) (.size 0) heap
  | adjusted {before : List MemoryBlock} {last : MemoryBlock} {freed : MemoryRange}
      (parts : heap.freeList = before ++ [last]) (ends : last.span.stop = heap.heapEnd)
      (range : freed = ⟨last.address, heap.heapEnd - last.address⟩)
      (result : adjustExpHeap heap =
        (freed, { heap with freeList := before, heapEnd := last.address })) :
    Change heap .adjust (.range freed) { heap with freeList := before, heapEnd := last.address }
  | unadjusted (result : adjustExpHeap heap = (⟨heap.heapEnd, 0⟩, heap)) :
    Change heap .adjust (.range ⟨heap.heapEnd, 0⟩) heap
  | setMode {mode : AllocationMode} :
    Change heap (.setMode mode) (.mode heap.mode) { heap with mode }
  | setUseMargins {useAlignmentMargins : Bool} :
    Change heap (.setUseMargins useAlignmentMargins) (.margins heap.useAlignmentMargins)
      { heap with useAlignmentMargins }
  | setGroupId {groupId : BitVec 16} :
    Change heap (.setGroupId groupId) (.group heap.groupId) { heap with groupId }

section Steps

variable {heap heap' : ExpHeap} {operation : Operation} {response : Response}

/-- An operation that returns has done what it is for. -/
theorem change_of_step (valid : heap.Valid) (bounded : operation.Bounded)
    (done : step heap operation = .ok (response, heap')) :
    Change heap operation response heap' := by
  cases operation with
  | allocate size alignment =>
    rw [step] at done
    cases result : allocateFromExpHeap heap size alignment with
    | error failure => simp [result, Except.map] at done
    | ok both =>
      obtain ⟨block, after⟩ := both
      rw [result] at done
      obtain ⟨rfl, rfl⟩ := Prod.mk.inj (Except.ok.inj done)
      rcases allocateFromExpHeap_spec valid bounded result with
        ⟨rfl, rfl, nothing, -⟩ | ⟨block, blockHead, used, rfl, granted⟩
      · exact .refused nothing
      · exact .granted (InRange.size bounded).1 granted
  | free memBlock =>
    rw [step] at done
    cases result : freeToExpHeap heap memBlock with
    | error failure => simp [result, Except.map] at done
    | ok after =>
      rw [result] at done
      obtain ⟨rfl, rfl⟩ := Prod.mk.inj (Except.ok.inj done)
      obtain ⟨head, use⟩ := exists_inUse valid result
      exact .freed use (freed_of_ok valid use result)
  | resize memBlock size =>
    rw [step] at done
    cases result : resizeExpHeapMemoryBlock heap memBlock size with
    | error failure => simp [result, Except.map] at done
    | ok both =>
      obtain ⟨blockSize, after⟩ := both
      rw [result] at done
      obtain ⟨rfl, rfl⟩ := Prod.mk.inj (Except.ok.inj done)
      obtain ⟨head, use⟩ := exists_inUse valid result
      rcases resizeExpHeapMemoryBlock_spec valid use result with
        ⟨rfl, rfl, larger, -⟩ | ⟨enough, resized⟩
      · exact .kept use larger
      · exact .resized use enough resized
  | adjust =>
    obtain ⟨⟨freed, after⟩, result⟩ : ∃ result, adjustExpHeap heap = result := ⟨_, rfl⟩
    rw [step, result] at done
    obtain ⟨rfl, rfl⟩ := Prod.mk.inj (Except.ok.inj done)
    rcases adjustExpHeap_spec valid result with ⟨rfl, rfl⟩ | ⟨before, last, parts, ends, range, rfl⟩
    · exact .unadjusted result
    · exact .adjusted parts ends range result
  | setMode mode =>
    obtain ⟨rfl, rfl⟩ := Prod.mk.inj (Except.ok.inj done)
    exact .setMode
  | setUseMargins useMargins =>
    obtain ⟨rfl, rfl⟩ := Prod.mk.inj (Except.ok.inj done)
    exact .setUseMargins
  | setGroupId groupId =>
    rw [step] at done
    split at done
    · cases done
    · obtain ⟨rfl, rfl⟩ := Prod.mk.inj (Except.ok.inj done)
      exact .setGroupId

/-- The settings of a heap do not matter to its blocks. -/
theorem Change.valid (change : Change heap operation response heap') (valid : heap.Valid) :
    heap'.Valid := by
  have settings (mode useAlignmentMargins groupId) :
      { heap with mode, useAlignmentMargins, groupId }.Valid :=
    ⟨valid.nonnull, valid.limit, valid.free, valid.used, valid.apart, valid.separate⟩
  cases change with
  | granted _ granted => exact granted.carved.valid
  | freed _ freed => exact freed.valid
  | resized _ _ resized => exact resized.valid
  | adjusted _ _ _ result => exact valid_of_adjustExpHeap valid result
  | refused _ => exact valid
  | kept _ _ => exact valid
  | unadjusted _ => exact valid
  | setMode => exact settings _ _ _
  | setUseMargins => exact settings _ _ _
  | setGroupId => exact settings _ _ _

theorem run_cons {operations : List Operation} {responses : List Response} :
    run heap (operation :: operations) = .ok (responses, heap') ↔
      ∃ response next rest, step heap operation = .ok (response, next) ∧
        run next operations = .ok (rest, heap') ∧ responses = response :: rest := by
  rw [run]
  constructor
  · intro done
    cases first : step heap operation with
    | error failure =>
      rw [first] at done
      cases done
    | ok both =>
      obtain ⟨response, next⟩ := both
      rw [first] at done
      change (run next operations >>= _) = _ at done
      cases later : run next operations with
      | error failure =>
        rw [later] at done
        cases done
      | ok both =>
        obtain ⟨rest, last⟩ := both
        rw [later] at done
        obtain ⟨rfl, rfl⟩ := Prod.mk.inj (Except.ok.inj done)
        exact ⟨response, next, rest, rfl, later, rfl⟩
  · rintro ⟨response, next, rest, first, later, rfl⟩
    rw [first]
    change (run next operations >>= _) = _
    rw [later]
    rfl

/-- A run keeps a heap valid. -/
theorem valid_of_run {operations : List Operation} {responses : List Response} (valid : heap.Valid)
    (bounded : ∀ operation ∈ operations, operation.Bounded)
    (done : run heap operations = .ok (responses, heap')) : heap'.Valid := by
  induction operations generalizing heap responses with
  | nil =>
    obtain ⟨-, rfl⟩ := Prod.mk.inj (Except.ok.inj done)
    exact valid
  | cons operation rest ih =>
    obtain ⟨first, others⟩ := List.forall_mem_cons.mp bounded
    obtain ⟨response, next, responses', here, later, -⟩ := run_cons.mp done
    exact ih ((change_of_step valid first here).valid valid) others later

end Steps

/-! ## Clients -/

/-- What a client sees of a heap. -/
structure Client where
  arena : Extent ℕ
  blocks : Set (Extent ℕ)

/-- The addresses that blocks are for. -/
def payloads (blocks : List MemoryBlock) : Set (Extent ℕ) :=
  {payload | ∃ head ∈ blocks, head.payload = payload}

def ExpHeap.client (heap : ExpHeap) : Client := ⟨heap.arena, payloads heap.usedList⟩

/-- What an operation is for: a new block is apart from the others and aligned, a block keeps its
place when its size changes, and the blocks that an operation is not about stay. -/
inductive Turn (client : Client) : Operation → Response → Client → Prop
  | granted {size : U64} {alignment : BitVec 32} {block : ℕ}
      (fresh : Fresh client.arena client.blocks ⟨block, block + allocationSize size⟩)
      (enough : size.toNat ≤ allocationSize size)
      (aligned : (fixAlignment alignment).natAbs ∣ block) :
    Turn client (.allocate size alignment) (.pointer (some block))
      { client with blocks := insert ⟨block, block + allocationSize size⟩ client.blocks }
  | refused {size : U64} {alignment : BitVec 32} :
    Turn client (.allocate size alignment) (.pointer none) client
  | freed {memBlock : U64} {block : Extent ℕ} (member : block ∈ client.blocks)
      (start : block.start = memBlock.toNat) :
    Turn client (.free memBlock) .done { client with blocks := client.blocks \ {block} }
  | resized {memBlock size : U64} {block : Extent ℕ} {blockSize : ℕ}
      (member : block ∈ client.blocks) (start : block.start = memBlock.toNat)
      (enough : (Sf.alignUp size 4).toNat ≤ blockSize)
      (fresh : Fresh client.arena (client.blocks \ {block})
        ⟨block.start, block.start + blockSize⟩) :
    Turn client (.resize memBlock size) (.size blockSize)
      { client with
        blocks := insert ⟨block.start, block.start + blockSize⟩ (client.blocks \ {block}) }
  | kept {memBlock size : U64} {block : Extent ℕ} (member : block ∈ client.blocks)
      (start : block.start = memBlock.toNat)
      (larger : block.stop < block.start + (Sf.alignUp size 4).toNat) :
    Turn client (.resize memBlock size) (.size 0) client
  | adjusted {freed : MemoryRange} (address : freed.address + freed.size = client.arena.stop)
      (above : ∀ block ∈ client.blocks, block.stop ≤ freed.address) :
    Turn client .adjust (.range freed) { client with arena := ⟨client.arena.start, freed.address⟩ }
  | setMode {mode old : AllocationMode} : Turn client (.setMode mode) (.mode old) client
  | setUseMargins {useMargins old : Bool} :
    Turn client (.setUseMargins useMargins) (.margins old) client
  | setGroupId {groupId old : BitVec 16} : Turn client (.setGroupId groupId) (.group old) client

/-- The operations one after the other, with what they return. -/
inductive Turns : Client → List Operation → List Response → Client → Prop
  | nil {client : Client} : Turns client [] [] client
  | cons {client next last : Client} {operation : Operation} {response : Response}
      {operations : List Operation} {responses : List Response}
      (turn : Turn client operation response next) (turns : Turns next operations responses last) :
    Turns client (operation :: operations) (response :: responses) last

theorem Turn.exclusive {client next : Client} {operation : Operation} {response : Response}
    (turn : Turn client operation response next)
    (exclusive : Exclusive client.arena client.blocks) : Exclusive next.arena next.blocks := by
  cases turn with
  | granted fresh _ _ => exact exclusive.insert fresh
  | freed _ _ => exact exclusive.mono Set.sdiff_subset
  | resized _ _ _ fresh => exact exclusive.replace fresh
  | adjusted _ above => exact exclusive.shorten above
  | refused => exact exclusive
  | kept _ _ _ => exact exclusive
  | setMode => exact exclusive
  | setUseMargins => exact exclusive
  | setGroupId => exact exclusive

/-- No run makes two blocks of a client share anything. -/
theorem Turns.exclusive {client last : Client} {operations : List Operation}
    {responses : List Response} (turns : Turns client operations responses last)
    (exclusive : Exclusive client.arena client.blocks) : Exclusive last.arena last.blocks := by
  induction turns with
  | nil => exact exclusive
  | cons turn _ ih => exact ih (turn.exclusive exclusive)

/-! ## Refinement -/

section Refinement

variable {heap heap' : ExpHeap}

/-- The blocks beside one that is in use are those of the client without it. -/
theorem payloads_split (valid : heap.Valid) {before after : List MemoryBlock} {head : MemoryBlock}
    (parts : heap.usedList = before ++ ([head] ++ after)) :
    payloads heap.usedList \ {head.payload} = payloads (before ++ after) ∧
      Fresh heap.arena (payloads (before ++ after)) head.payload ∧
      payloads heap.usedList = insert head.payload (payloads (before ++ after)) := by
  have member : head ∈ heap.usedList := by simp [parts]
  have apart := valid.apart
  rw [parts] at apart
  obtain ⟨-, later, earlier⟩ := List.pairwise_append.mp apart
  have others : ∀ other ∈ before ++ after, head.span.Apart other.span := by
    intro other there
    rcases List.mem_append.mp there with first | second
    · exact (earlier other first head (List.mem_cons_self ..)).symm
    · exact (List.pairwise_cons.mp later).1 other second
  have starts : ∀ other ∈ before ++ after, head.payload.start ≠ other.payload.start := by
    intro other there same
    exact address_ne (others other there) (Nat.add_right_cancel same)
  have whole : payloads heap.usedList = insert head.payload (payloads (before ++ after)) := by
    ext payload
    constructor
    · rintro ⟨other, there, rfl⟩
      rw [parts, List.mem_append, List.mem_append, List.mem_singleton] at there
      rcases there with first | rfl | second
      · exact .inr ⟨other, List.mem_append_left _ first, rfl⟩
      · exact .inl rfl
      · exact .inr ⟨other, List.mem_append_right _ second, rfl⟩
    · rintro (rfl | ⟨other, there, rfl⟩)
      · exact ⟨head, member, rfl⟩
      · refine ⟨other, ?_, rfl⟩
        rw [parts, List.mem_append, List.mem_append]
        exact (List.mem_append.mp there).imp_right .inr
  have outside : head.payload ∉ payloads (before ++ after) := by
    rintro ⟨other, there, same⟩
    exact starts other there (congrArg Extent.start same).symm
  obtain ⟨placed, -⟩ := valid.used head member
  have low : heap.heapStart + _ ≤ _ := placed.low
  refine ⟨?_, ⟨?_, ?_, placed.high, ?_, ?_⟩, whole⟩
  · rw [whole, Set.insert_sdiff_self_of_notMem outside]
  · change heap.heapStart ≤ head.address + 0x20
    omega
  · change head.address + 0x20 ≤ head.address + 0x20 + _
    omega
  · rintro _ ⟨other, there, rfl⟩
    have inside {block : MemoryBlock} : block.span.start ≤ block.payload.start := by
      change block.address - _ ≤ block.address + 0x20
      omega
    exact ((others other there).mono inside le_rfl).symm.mono inside le_rfl |>.symm
  · rintro _ ⟨other, there, rfl⟩
    exact starts other there

theorem Change.turn {operation : Operation} {response : Response}
    (change : Change heap operation response heap') (valid : heap.Valid) :
    Turn heap.client operation response heap'.client := by
  have valid' := change.valid valid
  cases change with
  | granted enough granted =>
    obtain ⟨-, -, aligned, allocated, carved⟩ := granted
    obtain ⟨-, fresh, whole⟩ := @payloads_split heap' valid' heap.usedList [] _ carved.usedList
    rw [List.append_nil, allocated.payload] at fresh whole
    rw [carved.arena] at fresh
    have client : heap'.client = ⟨heap.arena, insert _ heap.client.blocks⟩ :=
      congrArg₂ Client.mk carved.arena whole
    rw [client]
    exact .granted fresh enough aligned.dvd
  | refused _ => exact .refused
  | freed use freed =>
    obtain ⟨before, after, parts, parts'⟩ := freed.usedList
    obtain ⟨without, -, -⟩ := payloads_split valid parts
    rw [← parts'] at without
    have client : heap'.client = ⟨heap.arena, heap.client.blocks \ {_}⟩ :=
      congrArg₂ Client.mk freed.arena without.symm
    rw [client]
    exact .freed ⟨_, use.member, rfl⟩ use.start
  | @resized memBlock size head blockSize _ use enough resized =>
    obtain ⟨before, after, parts, parts'⟩ := resized.usedList
    obtain ⟨without, -, -⟩ := payloads_split valid parts
    obtain ⟨-, fresh, whole⟩ := payloads_split valid' parts'
    rw [← without] at fresh whole
    rw [resized.arena] at fresh
    have client : heap'.client = ⟨heap.arena,
        insert ⟨head.payload.start, head.payload.start + blockSize⟩
          (heap.client.blocks \ {head.payload})⟩ := congrArg₂ Client.mk resized.arena whole
    rw [client]
    exact .resized ⟨head, use.member, rfl⟩ use.start enough fresh
  | @kept memBlock size head use larger =>
    refine .kept ⟨head, use.member, rfl⟩ use.start ?_
    exact Nat.add_lt_add_left larger _
  | @adjusted before last freed parts ends range _ =>
    have := MemoryBlock.span_lt last
    have start := (valid.free.free last (by simp [parts])).span_start
    subst range
    refine .adjusted ?_ ?_
    · change last.address + (heap.heapEnd - last.address) = heap.heapEnd
      omega
    · rintro _ ⟨head, member, rfl⟩
      exact (valid'.used head member).1.high
  | unadjusted _ =>
    have above : ∀ block ∈ heap.client.blocks, block.stop ≤ heap.heapEnd := by
      rintro _ ⟨head, member, rfl⟩
      exact (valid.used head member).1.high
    exact @Turn.adjusted heap.client ⟨heap.heapEnd, 0⟩ rfl above
  | setMode => exact .setMode
  | setUseMargins => exact .setUseMargins
  | setGroupId => exact .setGroupId

theorem turns_of_run {operations : List Operation} {responses : List Response} (valid : heap.Valid)
    (bounded : ∀ operation ∈ operations, operation.Bounded)
    (done : run heap operations = .ok (responses, heap')) :
    Turns heap.client operations responses heap'.client := by
  induction operations generalizing heap responses with
  | nil =>
    obtain ⟨rfl, rfl⟩ := Prod.mk.inj (Except.ok.inj done)
    exact .nil
  | cons operation rest ih =>
    obtain ⟨first, others⟩ := List.forall_mem_cons.mp bounded
    obtain ⟨response, next, responses', here, later, rfl⟩ := run_cons.mp done
    have change := change_of_step valid first here
    exact .cons (change.turn valid) (ih (change.valid valid) others later)

/-- A heap on 0x1000 bytes, and what happens to it. -/
def oneHeap : ExpHeap := initializeExpHeap 0x1000 0x2000

def oneRun : List Operation :=
  [.allocate 0x40 0x20, .allocate 0x10 (-4), .resize 0x10A0 0x30, .free 0x1100]

def onePast : ExpHeap where
  heapStart := 0x1068
  heapEnd := 0x2000
  freeList := [⟨0x10E0, freeBlockMagic, 0, 0xF00⟩]
  usedList := [⟨0x1080, usedBlockMagic, 0x1800, 0x40⟩]
  groupId := 0
  useAlignmentMargins := false
  mode := .firstFit

theorem oneHeap_created : createExpHeap 0x1000 0x1000 = some oneHeap := by decide

theorem oneRun_bounded : ∀ operation ∈ oneRun, operation.Bounded := by
  intro operation member
  simp only [oneRun, List.mem_cons, List.not_mem_nil, or_false] at member
  rcases member with rfl | rfl | rfl | rfl
  · change _ + 4 + _ ≤ _
    decide
  · change _ + 4 + _ ≤ _
    decide
  · trivial
  · trivial

theorem oneRun_run : run oneHeap oneRun = .ok
    ([.pointer (some 0x10A0), .pointer (some 0x1100), .size 0x40, .done], onePast) := rfl

theorem oneHeap_valid : oneHeap.Valid :=
  (valid_of_createExpHeap oneHeap_created (by decide) (by decide)).1

theorem onePast_valid : onePast.Valid := valid_of_run oneHeap_valid oneRun_bounded oneRun_run

end Refinement

end Hakkun.Mem
