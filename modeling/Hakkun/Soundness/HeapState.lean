import Hakkun.Soundness.MemoryBlocks
import Mathlib.Data.List.Pairwise
import Mathlib.Data.List.TakeWhile

/-! # Coalescing and the state of a heap

A region that is freed is joined to the free blocks that it touches, so that the addresses that free
blocks take are those before with the region. The region is refused if no free block touches it and
it is too small for a block of its own, and then nothing changes. The blocks of a heap lie in it and
apart from each other, and free blocks do not touch. Blocks can be exchanged for others on the
addresses that they and the free blocks take.
-/

namespace Hakkun.Mem

open Math (Extent Canonical cover insertJoined consJoined)

variable {arena : Extent ℕ} {region : MemoryRegion} {blocks before after : List MemoryBlock}

/-! ## Neighbours -/

theorem joinNext_cases :
    (joinNext region after = (region, after) ∧
      ∀ next rest, after = next :: rest → next.address ≠ region.stop) ∨
    ∃ next rest, after = next :: rest ∧ next.address = region.stop ∧
      joinNext region after = (⟨region.start, next.stop⟩, rest) := by
  cases after with
  | nil => exact .inl ⟨rfl, by simp⟩
  | cons next rest =>
    rcases eq_or_ne next.address region.stop with touching | apart
    · exact .inr ⟨next, rest, rfl, touching, if_pos touching⟩
    · refine .inl ⟨if_neg apart, ?_⟩
      rintro _ _ ⟨⟩
      exact apart

theorem joinPrev_cases {freeRegion : MemoryRegion} :
    (joinPrev region freeRegion before = (freeRegion, before) ∧
      ∀ init prev, before = init ++ [prev] → prev.stop ≠ region.start) ∨
    ∃ init prev, before = init ++ [prev] ∧ prev.stop = region.start ∧
      joinPrev region freeRegion before = (⟨prev.address, freeRegion.stop⟩, init) := by
  rcases List.eq_nil_or_concat before with rfl | ⟨init, prev, rfl⟩
  · exact .inl ⟨rfl, by simp⟩
  · rw [List.concat_eq_append, joinPrev, List.getLast?_concat]
    rcases eq_or_ne prev.stop region.start with touching | apart
    · refine .inr ⟨init, prev, rfl, touching, ?_⟩
      rw [List.dropLast_concat]
      exact if_pos touching
    · refine .inl ⟨if_neg apart, fun init' prev' same => ?_⟩
      obtain ⟨-, own⟩ := List.append_inj' same rfl
      obtain ⟨rfl, -⟩ := List.cons.inj own
      exact apart

/-- A list of free blocks and a region that lies between two parts of it. -/
structure Gap (arena : Extent ℕ) (before after : List MemoryBlock) (region : MemoryRegion) :
    Prop where
  tidy : FreeBlocks arena (before ++ after)
  start : 4 ∣ region.start
  stop : 4 ∣ region.stop
  low : arena.start ≤ region.start
  high : region.stop ≤ arena.stop
  ordered : region.start < region.stop
  below : ∀ head ∈ before, head.address < region.start ∧ head.span.stop ≤ region.start
  above : ∀ head ∈ after, region.stop ≤ head.address

namespace Gap

variable (gap : Gap arena before after region)

include gap

theorem spanned {head : MemoryBlock} (member : head ∈ before ++ after) :
    head.span.start = head.address := (gap.tidy.free head member).span_start

/-- The region joined to the blocks around it takes their place. -/
theorem freeBlocks {first rest : List MemoryBlock} {joined : MemoryRegion}
    (usable : Usable arena joined) (small : arena.stop < 2 ^ 64)
    (inserted : insertJoined region ((before ++ after).map MemoryBlock.span) =
      first.map MemoryBlock.span ++ joined :: rest.map MemoryBlock.span)
    (left : first ⊆ before ++ after) (right : rest ⊆ before ++ after) :
    FreeBlocks arena (first ++ initializeFreeMemoryBlock joined :: rest) ∧
      taken (first ++ initializeFreeMemoryBlock joined :: rest) =
        region.toSet ∪ taken (before ++ after) := by
  have apart : ∀ interval ∈ (before ++ after).map MemoryBlock.span, interval.Apart region := by
    intro interval member
    obtain ⟨head, there, rfl⟩ := List.mem_map.mp member
    rcases List.mem_append.mp there with there' | there'
    · exact .inl (gap.below head there').2
    · exact .inr ((gap.above head there').trans_eq (gap.spanned there).symm)
  obtain ⟨normal, covered⟩ := Math.insertJoined_spec gap.ordered gap.tidy.normal apart
  have spans : (first ++ initializeFreeMemoryBlock joined :: rest).map MemoryBlock.span =
      insertJoined region ((before ++ after).map MemoryBlock.span) := by
    rw [List.map_append, List.map_cons, usable.span_eq small, inserted]
  refine ⟨⟨spans ▸ normal, ?_, ?_⟩, ?_⟩
  · intro head member
    rcases List.mem_append.mp member with there | there
    · exact gap.tidy.placed head (left there)
    · rcases List.mem_cons.mp there with rfl | there
      · exact usable.placed small
      · exact gap.tidy.placed head (right there)
  · intro head member
    rcases List.mem_append.mp member with there | there
    · exact gap.tidy.free head (left there)
    · rcases List.mem_cons.mp there with rfl | there
      · exact usable.isFree small
      · exact gap.tidy.free head (right there)
  · rw [taken, spans, covered]
    rfl

/-- The block after the region, if it touches it. -/
theorem joinNext_spec (small : arena.stop < 2 ^ 64) {joined : MemoryRegion}
    {rest : List MemoryBlock} (next : joinNext region after = (joined, rest)) :
    joined.start = region.start ∧ rest ⊆ after ∧ 4 ∣ joined.stop ∧ joined.stop ≤ arena.stop ∧
      (∀ start, consJoined ⟨start, region.stop⟩ (after.map MemoryBlock.span) =
        ⟨start, joined.stop⟩ :: rest.map MemoryBlock.span) ∧
      (joined.stop = region.stop ∧ rest = after ∧
          (∀ head ∈ after, head.span.start ≠ region.stop) ∨
        region.stop + 0x24 ≤ joined.stop ∧ ∃ head ∈ after, head.span.start = region.stop) := by
  have spanned {head : MemoryBlock} (member : head ∈ after) : head.span.start = head.address :=
    gap.spanned (List.mem_append_right _ member)
  rcases @joinNext_cases region after with
    ⟨same, apart⟩ | ⟨own, rest', rfl, touching, same⟩
  · obtain ⟨rfl, rfl⟩ := Prod.mk.inj (next.symm.trans same)
    have untouched : ∀ head ∈ rest, head.span.start ≠ joined.stop := by
      intro head member
      cases rest with
      | nil => cases member
      | cons first later =>
        rw [spanned member]
        rcases List.mem_cons.mp member with rfl | member'
        · exact apart _ _ rfl
        · have normal := (Math.Canonical.append_iff.mp (List.map_append ▸ gap.tidy.normal)).2.1
          have strict := (Math.Canonical.cons_iff.mp normal).2.1 _ (List.mem_map_of_mem member')
          have order := MemoryBlock.span_lt first
          rw [spanned (List.mem_cons_self ..)] at order
          rw [spanned member] at strict
          have := gap.above first (List.mem_cons_self ..)
          omega
    refine ⟨rfl, List.Subset.refl _, gap.stop, gap.high, fun start => ?_,
      .inl ⟨rfl, rfl, untouched⟩⟩
    cases rest with
    | nil => rfl
    | cons first later => exact if_neg (untouched first (List.mem_cons_self ..))
  · obtain ⟨rfl, rfl⟩ := Prod.mk.inj (next.symm.trans same)
    have member : own ∈ before ++ own :: rest := List.mem_append_right _ (List.mem_cons_self ..)
    have usable := gap.tidy.usable member
    have room := usable.room
    rw [gap.spanned member] at room
    have stop := (gap.tidy.placed own member).stop_eq small
    refine ⟨rfl, List.subset_cons_self .., ?_, ?_, fun start => ?_, .inr ⟨?_, own, ?_, ?_⟩⟩
    · exact stop ▸ usable.stop
    · exact stop.trans_le usable.high
    · rw [List.map_cons, consJoined, if_pos ((gap.spanned member).trans touching), ← stop]
    · change region.stop + 0x24 ≤ own.stop
      omega
    · exact List.mem_cons_self ..
    · exact (gap.spanned member).trans touching

/-- The block before the region, if it touches it, once the block after it is joined. -/
theorem joinPrev_spec (small : arena.stop < 2 ^ 64) {freeRegion joined : MemoryRegion}
    {first : List MemoryBlock} (prev : joinPrev region freeRegion before = (joined, first)) :
    joined.stop = freeRegion.stop ∧ first ⊆ before ∧
      (freeRegion.start = region.start → 4 ∣ joined.start ∧ arena.start ≤ joined.start ∧
        insertJoined region ((before ++ after).map MemoryBlock.span) =
          first.map MemoryBlock.span ++
            consJoined ⟨joined.start, region.stop⟩ (after.map MemoryBlock.span) ∧
        (joined.start = region.start ∧ first = before ∧
            (∀ head ∈ before, head.span.stop ≠ region.start) ∨
          joined.start + 0x24 ≤ region.start ∧
            ∃ head ∈ before, head.span.stop = region.start)) := by
  have beyond : ∀ interval ∈ after.map MemoryBlock.span, region.start ≤ interval.start := by
    intro interval member
    obtain ⟨head, there, rfl⟩ := List.mem_map.mp member
    have := gap.above head there
    have := gap.ordered
    rw [gap.spanned (List.mem_append_right _ there)]
    omega
  have spanned {head : MemoryBlock} (member : head ∈ before) : head.span.start = head.address :=
    gap.spanned (List.mem_append_left _ member)
  rcases @joinPrev_cases region before freeRegion with
    ⟨same, apart⟩ | ⟨init, own, rfl, touching, same⟩
  · obtain ⟨rfl, rfl⟩ := Prod.mk.inj (prev.symm.trans same)
    have untouched : ∀ head ∈ first, head.span.stop ≠ region.start := by
      intro head member
      rcases List.eq_nil_or_concat first with rfl | ⟨init, last, rfl⟩
      · cases member
      · rw [List.concat_eq_append] at *
        have placed := gap.tidy.placed last (by simp)
        rcases List.mem_append.mp member with member' | member'
        · have normal := (Math.Canonical.append_iff.mp (List.map_append ▸ gap.tidy.normal)).1
          rw [List.map_append] at normal
          have strict := (Math.Canonical.append_iff.mp normal).2.2 _ (List.mem_map_of_mem member')
            last.span (by simp)
          have := (gap.below last (by simp)).1
          rw [spanned (by simp)] at strict
          omega
        · obtain rfl := List.mem_singleton.mp member'
          rw [← placed.stop_eq small]
          exact apart init head rfl
    refine ⟨rfl, List.Subset.refl _, fun start => ⟨start ▸ gap.start, start ▸ gap.low, ?_,
      .inl ⟨start, rfl, untouched⟩⟩⟩
    rw [List.map_append, Math.insertJoined_append, Math.insertJoined_of_le beyond, start]
    intro interval member
    obtain ⟨head, there, rfl⟩ := List.mem_map.mp member
    rw [spanned there]
    exact ⟨(gap.below head there).1, untouched head there⟩
  · obtain ⟨rfl, rfl⟩ := Prod.mk.inj (prev.symm.trans same)
    have member : own ∈ first ++ [own] := List.mem_append_right _ (List.mem_singleton_self _)
    have whole := List.mem_append_left after member
    have usable := gap.tidy.usable whole
    have room := usable.room
    have stop := (gap.tidy.placed own whole).stop_eq small
    have start := spanned member
    have here : own.span.stop = region.start := stop.symm.trans touching
    have earlier : ∀ interval ∈ first.map MemoryBlock.span,
        interval.start < region.start ∧ interval.stop ≠ region.start := by
      intro interval there
      have normal := (Math.Canonical.append_iff.mp (List.map_append ▸ gap.tidy.normal)).1
      rw [List.map_append] at normal
      have strict := (Math.Canonical.append_iff.mp normal).2.2 interval there own.span (by simp)
      obtain ⟨head, -, rfl⟩ := List.mem_map.mp there
      have := MemoryBlock.span_lt head
      omega
    refine ⟨rfl, List.subset_append_left .., fun _ => ⟨?_, ?_, ?_, .inr ⟨?_, own, member, here⟩⟩⟩
    · exact start ▸ usable.start
    · exact start ▸ usable.low
    · have below : own.span.start < region.start := by omega
      rw [List.map_append, List.map_append, List.append_assoc, Math.insertJoined_append earlier]
      congr 1
      change insertJoined region (own.span :: after.map MemoryBlock.span) = _
      rw [Math.insertJoined_of_touching below here, start]
    · change own.address + 0x24 ≤ region.start
      omega

end Gap

/-! ## Freed regions -/

/-- What coalescing returns and leaves. -/
structure Coalesced (arena : Extent ℕ) (blocks : List MemoryBlock) (region : MemoryRegion)
    (result : Bool × List MemoryBlock) : Prop where
  merged : result.1 = true →
    FreeBlocks arena result.2 ∧ taken result.2 = region.toSet ∪ taken blocks
  refused : result.1 = false → result.2 = blocks
  merges_iff : result.1 = true ↔ region.start + 0x24 ≤ region.stop ∨
    ∃ head ∈ blocks, head.span.stop = region.start ∨ head.span.start = region.stop

theorem Gap.coalesced (gap : Gap arena before after region) (small : arena.stop < 2 ^ 64) :
    Coalesced arena (before ++ after) region (coalesceFreedRegion (before ++ after) region) := by
  have below : ∀ head ∈ before, decide (head.address < region.start) = true := fun head member =>
    decide_eq_true (gap.below head member).1
  have above : ∀ head ∈ after, decide (head.address < region.start) = false := fun head member =>
    decide_eq_false (by have := gap.above head member; have := gap.ordered; omega)
  have taken_ : (before ++ after).takeWhile (·.address < region.start) = before := by
    rw [List.takeWhile_append_of_pos below]
    cases after with
    | nil => simp
    | cons head rest => simp [above head (List.mem_cons_self ..)]
  have dropped : (before ++ after).dropWhile (·.address < region.start) = after := by
    rw [List.dropWhile_append_of_pos below]
    cases after with
    | nil => rfl
    | cons head rest => simp [above head (List.mem_cons_self ..)]
  obtain ⟨⟨freeRegion, rest⟩, next⟩ : ∃ result, joinNext region after = result := ⟨_, rfl⟩
  obtain ⟨⟨joined, first⟩, prev⟩ : ∃ result, joinPrev region freeRegion before = result := ⟨_, rfl⟩
  have result : coalesceFreedRegion (before ++ after) region =
      if isTooSmall joined then (false, first ++ rest)
      else (true, first ++ initializeFreeMemoryBlock joined :: rest) := by
    rw [coalesceFreedRegion, taken_, dropped, next]
    simp only [prev]
  obtain ⟨begins, right, multiple', high, consed, touching'⟩ := gap.joinNext_spec small next
  obtain ⟨ends, left, others⟩ := gap.joinPrev_spec small prev
  obtain ⟨multiple, low, inserted, touching⟩ := others begins
  have ordered := gap.ordered
  have order : joined.start ≤ region.start ∧ region.stop ≤ joined.stop := by omega
  have tooSmall := @isTooSmall_iff joined (by omega) (by omega)
  rw [result]
  refine ⟨fun merged => ?_, fun refused => ?_, ?_⟩
  · have room : ¬ isTooSmall joined := fun none => by simp [none] at merged
    have usable : Usable arena joined :=
      ⟨low, ends ▸ high, multiple, ends ▸ multiple', by rw [tooSmall] at room; omega⟩
    rw [if_neg room]
    refine gap.freeBlocks usable small ?_ (List.Subset.trans left (List.subset_append_left ..))
      (List.Subset.trans right (List.subset_append_right ..))
    rw [inserted, consed, ← ends]
  · have none : isTooSmall joined := by
      by_contra room
      simp [room] at refused
    rw [if_pos none]
    rw [tooSmall] at none
    obtain ⟨-, rfl, -⟩ : joined.start = region.start ∧ first = before ∧ _ :=
      touching.resolve_right fun both => absurd both.1 (by omega)
    obtain ⟨-, rfl, -⟩ : freeRegion.stop = region.stop ∧ rest = after ∧ _ :=
      touching'.resolve_right fun both => absurd both.1 (by omega)
    rfl
  · have merges : (if isTooSmall joined then (false, first ++ rest)
        else (true, first ++ initializeFreeMemoryBlock joined :: rest)).1 = true ↔
          ¬ joined.stop < joined.start + 0x24 := by
      rw [← tooSmall]
      split <;> simp_all
    rw [merges]
    constructor
    · intro room
      rcases touching with ⟨start, -, -⟩ | ⟨-, head, member, touches⟩
      · rcases touching' with ⟨stop, -, -⟩ | ⟨-, head, member, touches⟩
        · exact .inl (by omega)
        · exact .inr ⟨head, List.mem_append_right _ member, .inr touches⟩
      · exact .inr ⟨head, List.mem_append_left _ member, .inl touches⟩
    · rintro (room | ⟨head, member, touches⟩)
      · omega
      · rcases touching with ⟨-, -, untouched⟩ | ⟨room, -⟩
        · rcases touching' with ⟨-, -, untouched'⟩ | ⟨room, -⟩
          · rcases List.mem_append.mp member with there | there
            · have := gap.below head there
              exact absurd (touches.resolve_left (untouched head there))
                (by rw [gap.spanned member]; omega)
            · have := gap.above head there
              have := MemoryBlock.span_lt head
              exact absurd (touches.resolve_right (untouched' head there))
                (by rw [gap.spanned member] at this; omega)
          · omega
        · omega

/-- A region that is freed lies in the arena, apart from the free blocks. -/
theorem coalesceFreedRegion_spec (tidy : FreeBlocks arena blocks) (small : arena.stop < 2 ^ 64)
    (start : 4 ∣ region.start) (stop : 4 ∣ region.stop) (low : arena.start ≤ region.start)
    (high : region.stop ≤ arena.stop) (ordered : region.start < region.stop)
    (apart : ∀ head ∈ blocks, head.span.Apart region) :
    Coalesced arena blocks region (coalesceFreedRegion blocks region) := by
  have placed := tidy.placed
  have spanned {head : MemoryBlock} (member : head ∈ blocks) : head.span.start = head.address :=
    (tidy.free head member).span_start
  have split : blocks.takeWhile (·.address < region.start) ++
      blocks.dropWhile (·.address < region.start) = blocks := List.takeWhile_append_dropWhile
  have gap : Gap arena (blocks.takeWhile (·.address < region.start))
      (blocks.dropWhile (·.address < region.start)) region := by
    refine ⟨split.symm ▸ tidy, start, stop, low, high, ordered, fun head member => ?_, ?_⟩
    · have there := (List.takeWhile_sublist _).subset member
      have below : head.address < region.start := by simpa using List.mem_takeWhile_imp member
      refine ⟨below, (apart head there).resolve_right fun above => ?_⟩
      rw [spanned there] at above
      omega
    · have beyond : ∀ head ∈ blocks.dropWhile (·.address < region.start),
          region.start ≤ head.address := fun head member => by
        cases rest : blocks.dropWhile (·.address < region.start) with
        | nil => simp [rest] at member
        | cons first later =>
          have here : ¬ first.address < region.start := by
            have := List.head?_dropWhile_not
              (fun head => decide (head.address < region.start)) blocks
            simpa [rest] using this
          rw [rest] at member split
          rcases List.mem_cons.mp member with rfl | there
          · omega
          · have normal := tidy.normal
            rw [← split, List.map_append] at normal
            obtain ⟨-, right, -⟩ := Math.Canonical.append_iff.mp normal
            have later := (Math.Canonical.cons_iff.mp right).2.1 _ (List.mem_map_of_mem there)
            have := MemoryBlock.span_lt first
            have own : first ∈ blocks :=
              split ▸ List.mem_append_right _ (List.mem_cons_self ..)
            have := spanned own
            have := spanned (split ▸ List.mem_append_right _ member : head ∈ blocks)
            omega
      intro head member
      have there := (List.dropWhile_sublist _).subset member
      have := beyond head member
      have := MemoryBlock.span_lt head
      have := spanned there
      have := (apart head there).resolve_left (by omega)
      omega
  have coalesced := gap.coalesced small
  rwa [split] at coalesced

end Hakkun.Mem

/-! ## The state of a heap -/

namespace Hakkun.Mem

open Math (Extent Canonical cover)

/-- Where the blocks of a heap are. -/
def ExpHeap.arena (heap : ExpHeap) : Extent ℕ := ⟨heap.heapStart, heap.heapEnd⟩

/-- The blocks of a heap are in it and apart, and it ends below the end of the address space. -/
structure ExpHeap.Valid (heap : ExpHeap) : Prop where
  nonnull : 0 < heap.heapStart
  limit : heap.heapEnd + 2 ^ 31 ≤ 2 ^ 64
  free : FreeBlocks heap.arena heap.freeList
  used : ∀ head ∈ heap.usedList, head.Placed heap.arena ∧ head.magic = usedBlockMagic
  apart : heap.usedList.Pairwise fun head other => head.span.Apart other.span
  separate : ∀ head ∈ heap.freeList, ∀ other ∈ heap.usedList, head.span.Apart other.span

theorem ExpHeap.Valid.small {heap : ExpHeap} (valid : heap.Valid) :
    heap.arena.stop < 2 ^ 64 := by
  have := valid.limit
  change heap.heapEnd < 2 ^ 64
  omega

/-! ## Places in lists -/

section Around

variable {blocks : List MemoryBlock} {head : MemoryBlock} {arena : Extent ℕ}

theorem around_eq (member : head ∈ blocks)
    (unique : ∀ other ∈ blocks, other.address = head.address → other = head) :
    ∃ before after, blocks = before ++ head :: after ∧
      around head.address blocks = (before, after) := by
  induction blocks with
  | nil => cases member
  | cons first rest ih =>
    by_cases here : first.address = head.address
    · obtain rfl := unique first (List.mem_cons_self ..) here
      exact ⟨[], rest, rfl, by simp [around]⟩
    · have there : head ∈ rest :=
        (List.mem_cons.mp member).resolve_left fun same => here (same ▸ rfl)
      obtain ⟨before, after, rfl, found⟩ :=
        ih there fun other later => unique other (List.mem_cons_of_mem _ later)
      refine ⟨first :: before, after, rfl, ?_⟩
      rw [around, Prod.mk.injEq] at found ⊢
      simpa [here] using found

theorem find?_address (member : head ∈ blocks)
    (unique : ∀ other ∈ blocks, other.address = head.address → other = head) :
    blocks.find? (·.address = head.address) = some head := by
  obtain ⟨found, here⟩ : ∃ found, blocks.find? (·.address = head.address) = some found :=
    Option.isSome_iff_exists.mp (List.find?_isSome.mpr ⟨head, member, by simp⟩)
  have same := List.find?_some here
  rw [here, unique found (List.mem_of_find?_eq_some here) (of_decide_eq_true same)]

theorem address_ne {other : MemoryBlock} (apart : head.span.Apart other.span) :
    head.address ≠ other.address := by
  intro same
  have own := MemoryBlock.address_mem_span other
  rw [← same] at own
  exact Set.disjoint_left.mp apart.disjoint (MemoryBlock.address_mem_span head) own

theorem eq_of_address_eq (apart : blocks.Pairwise fun head other => head.span.Apart other.span)
    (member : head ∈ blocks) {other : MemoryBlock} (there : other ∈ blocks)
    (same : other.address = head.address) : other = head := by
  by_contra different
  have : Std.Symm fun head other : MemoryBlock => head.span.Apart other.span :=
    ⟨fun _ _ => Extent.Apart.symm⟩
  exact address_ne (apart.forall there member different) same

theorem FreeBlocks.apart (tidy : FreeBlocks arena blocks) :
    blocks.Pairwise fun head other => head.span.Apart other.span :=
  (List.pairwise_map.mp tidy.normal.apart).imp fun before => .inl before.le

end Around

/-! ## Exchange -/

section Exchange

variable {first second : List MemoryBlock}

theorem disjoint_taken_iff : Disjoint (taken first) (taken second) ↔
    ∀ head ∈ first, ∀ other ∈ second, head.span.Apart other.span := by
  constructor
  · intro disjoint head member other there
    exact Extent.apart_of_disjoint (MemoryBlock.span_lt head) (MemoryBlock.span_lt other)
      (disjoint.mono (Math.toSet_subset_cover (List.mem_map_of_mem member))
        (Math.toSet_subset_cover (List.mem_map_of_mem there)))
  · intro apart
    rw [Set.disjoint_left]
    rintro a ⟨interval, member, inside⟩ ⟨interval', member', inside'⟩
    obtain ⟨head, listed, rfl⟩ := List.mem_map.mp member
    obtain ⟨other, listed', rfl⟩ := List.mem_map.mp member'
    exact Set.disjoint_left.mp (apart head listed other listed').disjoint inside inside'

theorem taken_append : taken (first ++ second) = taken first ∪ taken second := by
  rw [taken, List.map_append, Math.cover_append]
  rfl

theorem taken_cons {head : MemoryBlock} :
    taken (head :: second) = head.span.toSet ∪ taken second := by
  rw [taken, List.map_cons, Math.cover_cons]
  rfl

theorem taken_nil : taken [] = ∅ := Math.cover_nil

theorem taken_singleton {head : MemoryBlock} : taken [head] = head.span.toSet := by
  rw [taken_cons, taken_nil, Set.union_empty]

/-- What a free block leaves when it is replaced by parts of it. -/
structure Replaced (arena : Extent ℕ) (before after : List MemoryBlock) (head : MemoryBlock)
    (parts : List MemoryRegion) : Prop where
  free : FreeBlocks arena (before ++ (parts.map initializeFreeMemoryBlock ++ after))
  taken_eq : taken (before ++ (parts.map initializeFreeMemoryBlock ++ after)) =
    taken (before ++ after) ∪ cover parts
  whole : taken (before ++ head :: after) = taken (before ++ after) ∪ head.span.toSet
  outside : Disjoint head.span.toSet (taken (before ++ after))

theorem FreeBlocks.replace {arena : Extent ℕ} {before after : List MemoryBlock}
    {head : MemoryBlock} {parts : List MemoryRegion} (small : arena.stop < 2 ^ 64)
    (tidy : FreeBlocks arena (before ++ head :: after)) (normal : Canonical parts)
    (usable : ∀ part ∈ parts, Usable arena part ∧ head.span.start ≤ part.start ∧
      part.stop ≤ head.span.stop) : Replaced arena before after head parts := by
  obtain ⟨⟨-, placed, free⟩, spans⟩ :=
    @FreeBlocks.of_regions arena _ normal (fun part member => (usable part member).1) small
  have listed : ∀ other ∈ before ++ after, other ∈ before ++ head :: after := fun other member =>
    ((List.sublist_cons_self head after).append_left before).subset member
  have members {P : MemoryBlock → Prop} (others : ∀ other ∈ before ++ head :: after, P other)
      (own : ∀ other ∈ parts.map initializeFreeMemoryBlock, P other) :
      ∀ other ∈ before ++ (parts.map initializeFreeMemoryBlock ++ after), P other := by
    obtain ⟨first, second⟩ := List.forall_mem_append.mp
      fun other member => others other (listed other member)
    exact List.forall_mem_append.mpr ⟨first, List.forall_mem_append.mpr ⟨own, second⟩⟩
  refine ⟨⟨?_, members tidy.placed placed, members tidy.free free⟩, ?_, ?_, ?_⟩
  · have whole := tidy.normal
    rw [List.map_append, List.map_cons] at whole
    rw [List.map_append, List.map_append, spans]
    exact whole.replace normal fun part member => (usable part member).2
  · rw [taken_append, taken_append, taken_append, taken, taken, spans, Set.union_assoc,
      Set.union_comm (cover _) (taken after)]
  · rw [taken_append, taken_cons, taken_append, Set.union_assoc, Set.union_comm head.span.toSet]
  · obtain ⟨-, later, earlier⟩ := List.pairwise_append.mp tidy.apart
    rw [← taken_singleton, disjoint_taken_iff]
    intro own here other member
    obtain rfl := List.mem_singleton.mp here
    rcases List.mem_append.mp member with there | there
    · exact (earlier other there own (List.mem_cons_self ..)).symm
    · exact (List.pairwise_cons.mp later).1 other there

/-- Some blocks in use become others on the same addresses and those of free blocks. -/
theorem ExpHeap.Valid.exchange {heap : ExpHeap} (valid : heap.Valid)
    {before old new after freeList : List MemoryBlock}
    (parts : heap.usedList = before ++ (old ++ after)) (free : FreeBlocks heap.arena freeList)
    (used : ∀ head ∈ new, head.Placed heap.arena ∧ head.magic = usedBlockMagic)
    (apart : new.Pairwise fun head other => head.span.Apart other.span)
    (within : taken freeList ∪ taken new ⊆ taken heap.freeList ∪ taken old)
    (disjoint : Disjoint (taken freeList) (taken new)) :
    { heap with freeList, usedList := before ++ (new ++ after) }.Valid := by
  have usedList := valid.used
  have pairs := valid.apart
  have separate := disjoint_taken_iff.mpr valid.separate
  rw [parts] at usedList pairs separate
  obtain ⟨left, pairs', earlier⟩ := List.pairwise_append.mp pairs
  obtain ⟨-, right, later⟩ := List.pairwise_append.mp pairs'
  obtain ⟨used', -⟩ := List.forall_mem_append.mp usedList
  have used'' := (List.forall_mem_append.mp (List.forall_mem_append.mp usedList).2).2
  rw [taken_append, taken_append] at separate
  have before_old : Disjoint (taken old) (taken before) := (disjoint_taken_iff.mpr
    fun head member other there => earlier head member other (List.mem_append_left _ there)).symm
  have after_old : Disjoint (taken old) (taken after) := disjoint_taken_iff.mpr later
  rw [Set.disjoint_union_right, Set.disjoint_union_right] at separate
  obtain ⟨free_before, -, free_after⟩ := separate
  have outside_before := (Set.disjoint_union_left.mpr ⟨free_before, before_old⟩).mono_left within
  have outside_after := (Set.disjoint_union_left.mpr ⟨free_after, after_old⟩).mono_left within
  obtain ⟨free_before', new_before⟩ := Set.disjoint_union_left.mp outside_before
  obtain ⟨free_after', new_after⟩ := Set.disjoint_union_left.mp outside_after
  refine ⟨valid.nonnull, valid.limit, free, ?_, ?_, disjoint_taken_iff.mp ?_⟩
  · exact List.forall_mem_append.mpr ⟨used', List.forall_mem_append.mpr ⟨used, used''⟩⟩
  · refine List.pairwise_append.mpr ⟨left, List.pairwise_append.mpr
      ⟨apart, right, disjoint_taken_iff.mp new_after⟩, fun head member => ?_⟩
    refine List.forall_mem_append.mpr ⟨fun other there => ?_, fun other there => ?_⟩
    · exact disjoint_taken_iff.mp new_before.symm head member other there
    · exact earlier head member other (List.mem_append_right _ there)
  · rw [taken_append, taken_append, Set.disjoint_union_right, Set.disjoint_union_right]
    exact ⟨free_before', disjoint, free_after'⟩

end Exchange

end Hakkun.Mem
