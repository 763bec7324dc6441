import Mathlib.Data.List.Basic
import Mathlib.Data.Set.Lattice
import Mathlib.Order.CompletePartialOrder
import Mathlib.Order.Interval.Set.LinearOrder

/-! # Lists of intervals

A set of addresses as an ascending list of half-open intervals that do not touch each other. Such a
list is determined by the set. Putting an interval into it, joined to what it touches, is a union,
and replacing one of its intervals by parts of it takes the rest of the interval out of the set.
Blocks in an arena share nothing with each other; one may be empty, and is still told from the
others by where it starts.
-/

namespace Hakkun.Math

variable {α : Type} [LinearOrder α]

/-- What lies between a start and a stop. -/
@[ext] structure Extent (α : Type) where
  start : α
  stop : α
  deriving DecidableEq

namespace Extent

def toSet (interval : Extent α) : Set α := Set.Ico interval.start interval.stop

theorem mem_toSet {interval : Extent α} {a : α} :
    a ∈ interval.toSet ↔ interval.start ≤ a ∧ a < interval.stop := Iff.rfl

/-- One of two intervals ends before the other starts. -/
def Apart (first second : Extent α) : Prop :=
  first.stop ≤ second.start ∨ second.stop ≤ first.start

theorem Apart.symm {first second : Extent α} (apart : first.Apart second) :
    second.Apart first := Or.symm apart

/-- What is apart from an interval is apart from its parts. -/
theorem Apart.mono {first second part : Extent α} (apart : first.Apart second)
    (start : second.start ≤ part.start) (stop : part.stop ≤ second.stop) : first.Apart part :=
  apart.imp start.trans' stop.trans

theorem Apart.disjoint {first second : Extent α} (apart : first.Apart second) :
    Disjoint first.toSet second.toSet := by
  rw [Set.disjoint_left]
  rintro a ⟨lower, upper⟩ ⟨lower', upper'⟩
  rcases apart with before | after
  · exact absurd (upper.trans_le before) (not_lt.mpr lower')
  · exact absurd (upper'.trans_le after) (not_lt.mpr lower)

theorem apart_of_disjoint {first second : Extent α} (some : first.start < first.stop)
    (other : second.start < second.stop) (disjoint : Disjoint first.toSet second.toSet) :
    first.Apart second := by
  rw [Set.disjoint_left] at disjoint
  by_contra touching
  obtain ⟨before, after⟩ := not_or.mp touching
  rw [not_le] at before after
  rcases le_total first.start second.start with lower | lower
  · exact disjoint (a := second.start) ⟨lower, before⟩ ⟨le_rfl, other⟩
  · exact disjoint (a := first.start) ⟨le_rfl, some⟩ ⟨lower, after⟩

end Extent

/-! ## Sets of addresses -/

/-- What lies in one of some intervals. -/
def cover (intervals : List (Extent α)) : Set α :=
  {a | ∃ interval ∈ intervals, a ∈ interval.toSet}

section Cover

variable {interval : Extent α} {first second : List (Extent α)}

@[simp] theorem cover_nil : cover ([] : List (Extent α)) = ∅ := by simp [cover]

@[simp] theorem cover_cons : cover (interval :: second) = interval.toSet ∪ cover second := by
  ext a
  simp [cover]

@[simp] theorem cover_append : cover (first ++ second) = cover first ∪ cover second := by
  induction first with
  | nil => simp
  | cons interval rest ih => rw [List.cons_append, cover_cons, cover_cons, ih, Set.union_assoc]

theorem toSet_subset_cover (member : interval ∈ first) : interval.toSet ⊆ cover first :=
  fun _ inside => ⟨interval, member, inside⟩

end Cover

/-! ## Canonical lists -/

/-- The intervals ascend and do not touch, and none is empty. -/
structure Canonical (intervals : List (Extent α)) : Prop where
  inhabited : ∀ interval ∈ intervals, interval.start < interval.stop
  apart : intervals.Pairwise fun before after => before.stop < after.start

namespace Canonical

variable {interval region : Extent α} {first second middle parts rest : List (Extent α)}

theorem nil : Canonical ([] : List (Extent α)) := ⟨by simp, .nil⟩

theorem cons_iff : Canonical (interval :: rest) ↔
    interval.start < interval.stop ∧ (∀ after ∈ rest, interval.stop < after.start) ∧
      Canonical rest := by
  constructor
  · rintro ⟨inhabited, apart⟩
    obtain ⟨here, later⟩ := List.pairwise_cons.mp apart
    obtain ⟨own, others⟩ := List.forall_mem_cons.mp inhabited
    exact ⟨own, here, others, later⟩
  · rintro ⟨own, here, others, later⟩
    exact ⟨List.forall_mem_cons.mpr ⟨own, others⟩, List.pairwise_cons.mpr ⟨here, later⟩⟩

theorem append_iff : Canonical (first ++ second) ↔
    Canonical first ∧ Canonical second ∧
      ∀ before ∈ first, ∀ after ∈ second, before.stop < after.start := by
  constructor
  · rintro ⟨inhabited, apart⟩
    obtain ⟨own, others⟩ := List.forall_mem_append.mp inhabited
    obtain ⟨left, right, across⟩ := List.pairwise_append.mp apart
    exact ⟨⟨own, left⟩, ⟨others, right⟩, across⟩
  · rintro ⟨left, right, across⟩
    exact ⟨List.forall_mem_append.mpr ⟨left.inhabited, right.inhabited⟩,
      List.pairwise_append.mpr ⟨left.apart, right.apart, across⟩⟩

/-- An address that ends an interval is in no later one. -/
theorem not_mem_cover_of_le (normal : Canonical (interval :: rest)) {a : α}
    (below : a ≤ interval.stop) : a ∉ cover rest := by
  rintro ⟨after, member, lower, -⟩
  have := (cons_iff.mp normal).2.1 after member
  exact absurd (lower.trans below) (not_le.mpr this)

theorem start_le_of_mem_cover (normal : Canonical (interval :: rest)) {a : α}
    (member : a ∈ cover (interval :: rest)) : interval.start ≤ a := by
  rw [cover_cons] at member
  rcases member with ⟨lower, -⟩ | later
  · exact lower
  · obtain ⟨own, -, -⟩ := cons_iff.mp normal
    by_contra below
    exact normal.not_mem_cover_of_le ((le_of_not_ge below).trans own.le) later

private theorem stop_le_of_cover_eq {other : Extent α} {rest' : List (Extent α)}
    (normal : Canonical (interval :: rest)) (starts : interval.start = other.start)
    (same : cover (interval :: rest) = cover (other :: rest')) : other.stop ≤ interval.stop := by
  by_contra longer
  rw [not_le] at longer
  obtain ⟨own, -, -⟩ := cons_iff.mp normal
  have inside : interval.stop ∈ cover (other :: rest') := by
    rw [cover_cons]
    exact .inl ⟨starts ▸ own.le, longer⟩
  rw [← same, cover_cons] at inside
  rcases inside with ⟨-, upper⟩ | later
  · exact lt_irrefl _ upper
  · exact normal.not_mem_cover_of_le le_rfl later

/-- A normal list is determined by the set that it covers. -/
theorem eq_of_cover_eq (normal : Canonical first) (normal' : Canonical second)
    (same : cover first = cover second) : first = second := by
  induction first generalizing second with
  | nil =>
    cases second with
    | nil => rfl
    | cons other rest' =>
      obtain ⟨own, -, -⟩ := cons_iff.mp normal'
      have inside : other.start ∈ cover (other :: rest') := by
        rw [cover_cons]
        exact .inl ⟨le_rfl, own⟩
      rw [← same, cover_nil] at inside
      exact absurd inside (Set.notMem_empty _)
  | cons interval rest ih =>
    cases second with
    | nil =>
      obtain ⟨own, -, -⟩ := cons_iff.mp normal
      have inside : interval.start ∈ cover (interval :: rest) := by
        rw [cover_cons]
        exact .inl ⟨le_rfl, own⟩
      rw [same, cover_nil] at inside
      exact absurd inside (Set.notMem_empty _)
    | cons other rest' =>
      obtain ⟨own, -, later⟩ := cons_iff.mp normal
      obtain ⟨own', -, later'⟩ := cons_iff.mp normal'
      have starts : interval.start = other.start := by
        apply le_antisymm
        · apply normal.start_le_of_mem_cover
          rw [same, cover_cons]
          exact .inl ⟨le_rfl, own'⟩
        · apply normal'.start_le_of_mem_cover
          rw [← same, cover_cons]
          exact .inl ⟨le_rfl, own⟩
      have stops : interval.stop = other.stop := le_antisymm
        (normal'.stop_le_of_cover_eq starts.symm same.symm) (normal.stop_le_of_cover_eq starts same)
      obtain rfl := Extent.ext starts stops
      rw [List.cons.injEq]
      refine ⟨rfl, ih later later' (Set.ext fun a => ?_)⟩
      have whole := Set.ext_iff.mp same a
      rw [cover_cons, cover_cons] at whole
      by_cases below : a ≤ interval.stop
      · exact iff_of_false (normal.not_mem_cover_of_le below) (normal'.not_mem_cover_of_le below)
      · have outside : a ∉ interval.toSet := fun inside => below (le_of_lt inside.2)
        simpa [outside] using whole

/-- Parts of an interval take its place. -/
theorem replace (normal : Canonical (first ++ interval :: second)) (normal' : Canonical parts)
    (inside : ∀ part ∈ parts, interval.start ≤ part.start ∧ part.stop ≤ interval.stop) :
    Canonical (first ++ (parts ++ second)) := by
  obtain ⟨left, right, across⟩ := append_iff.mp normal
  obtain ⟨-, here, later⟩ := cons_iff.mp right
  refine append_iff.mpr ⟨left, append_iff.mpr ⟨normal', later, ?_⟩, ?_⟩
  · intro part member after there
    exact (inside part member).2.trans_lt (here after there)
  · intro before there after member
    rcases List.mem_append.mp member with part | after'
    · exact (across before there interval (List.mem_cons_self ..)).trans_le (inside after part).1
    · exact across before there after (List.mem_cons_of_mem _ after')

end Canonical

/-! ## Insertion -/

/-- An interval in front of a list, joined to the first if that starts where it stops. -/
def consJoined (interval : Extent α) : List (Extent α) → List (Extent α)
  | [] => [interval]
  | next :: rest =>
    if next.start = interval.stop then ⟨interval.start, next.stop⟩ :: rest
    else interval :: next :: rest

/-- A region in its place in a list, joined to the intervals that it touches. -/
def insertJoined (region : Extent α) : List (Extent α) → List (Extent α)
  | [] => [region]
  | interval :: rest =>
    if region.start ≤ interval.start then consJoined region (interval :: rest)
    else if interval.stop = region.start then consJoined ⟨interval.start, region.stop⟩ rest
    else interval :: insertJoined region rest

section Insert

variable {interval region : Extent α} {first second rest : List (Extent α)}

theorem start_of_mem_consJoined {a : α} (below : a < interval.start)
    (others : ∀ after ∈ rest, a < after.start) :
    ∀ after ∈ consJoined interval rest, a < after.start := by
  cases rest with
  | nil => simpa [consJoined] using below
  | cons next rest =>
    obtain ⟨-, later⟩ := List.forall_mem_cons.mp others
    rw [consJoined]
    split
    · exact List.forall_mem_cons.mpr ⟨below, later⟩
    · exact List.forall_mem_cons.mpr ⟨below, others⟩

theorem canonical_consJoined (own : interval.start < interval.stop) (normal : Canonical rest)
    (before : ∀ after ∈ rest, interval.stop ≤ after.start) :
    Canonical (consJoined interval rest) := by
  cases rest with
  | nil => exact Canonical.cons_iff.mpr ⟨own, by simp, .nil⟩
  | cons next rest =>
    obtain ⟨inhabited, later, normal'⟩ := Canonical.cons_iff.mp normal
    have here := before next (List.mem_cons_self ..)
    rw [consJoined]
    split
    · exact Canonical.cons_iff.mpr ⟨own.trans (here.trans_lt inhabited), later, normal'⟩
    · case isFalse apart =>
      have strict := lt_of_le_of_ne here (Ne.symm apart)
      have others : ∀ after ∈ rest, interval.stop < after.start := fun after there =>
        strict.trans (inhabited.trans (later after there))
      exact Canonical.cons_iff.mpr ⟨own, List.forall_mem_cons.mpr ⟨strict, others⟩, normal⟩

theorem cover_consJoined (own : interval.start < interval.stop) (normal : Canonical rest) :
    cover (consJoined interval rest) = interval.toSet ∪ cover rest := by
  cases rest with
  | nil => simp [consJoined]
  | cons next rest =>
    obtain ⟨inhabited, -, -⟩ := Canonical.cons_iff.mp normal
    rw [consJoined]
    split
    · case isTrue touching =>
      rw [cover_cons, cover_cons, ← Set.union_assoc]
      congr 1
      change Set.Ico _ _ = Set.Ico _ _ ∪ Set.Ico _ _
      rw [touching, Set.Ico_union_Ico_eq_Ico own.le (touching ▸ inhabited.le)]
    · rw [cover_cons]

/-- What stands before the place of a region stays. -/
theorem insertJoined_append
    (before : ∀ interval ∈ first, interval.start < region.start ∧ interval.stop ≠ region.start) :
    insertJoined region (first ++ second) = first ++ insertJoined region second := by
  induction first with
  | nil => rfl
  | cons interval rest ih =>
    obtain ⟨⟨below, apart⟩, others⟩ := List.forall_mem_cons.mp before
    rw [List.cons_append, insertJoined, if_neg (not_le.mpr below), if_neg apart, ih others]
    rfl

theorem insertJoined_of_touching (below : interval.start < region.start)
    (touching : interval.stop = region.start) :
    insertJoined region (interval :: rest) = consJoined ⟨interval.start, region.stop⟩ rest := by
  rw [insertJoined, if_neg (not_le.mpr below), if_pos touching]

theorem insertJoined_of_le (after : ∀ interval ∈ rest, region.start ≤ interval.start) :
    insertJoined region rest = consJoined region rest := by
  cases rest with
  | nil => rfl
  | cons interval rest => exact if_pos (after interval (List.mem_cons_self ..))

theorem start_of_mem_insertJoined {a : α} (below : a < region.start)
    (others : ∀ after ∈ rest, a < after.start) :
    ∀ after ∈ insertJoined region rest, a < after.start := by
  induction rest with
  | nil => simpa [insertJoined] using below
  | cons interval rest ih =>
    obtain ⟨here, later⟩ := List.forall_mem_cons.mp others
    rw [insertJoined]
    split
    · exact start_of_mem_consJoined below others
    · split
      · exact start_of_mem_consJoined here later
      · exact List.forall_mem_cons.mpr ⟨here, ih later⟩

/-- The region is apart from the list, and put into it. -/
theorem insertJoined_spec (own : region.start < region.stop) (normal : Canonical rest)
    (apart : ∀ interval ∈ rest, interval.Apart region) :
    Canonical (insertJoined region rest) ∧
      cover (insertJoined region rest) = region.toSet ∪ cover rest := by
  induction rest with
  | nil => exact ⟨Canonical.cons_iff.mpr ⟨own, by simp, .nil⟩, by simp [insertJoined]⟩
  | cons interval rest ih =>
    obtain ⟨inhabited, later, normal'⟩ := Canonical.cons_iff.mp normal
    obtain ⟨here, others⟩ := List.forall_mem_cons.mp apart
    rw [insertJoined]
    split
    · case isTrue below =>
      have before : region.stop ≤ interval.start :=
        here.resolve_left fun after => absurd (inhabited.trans_le after) (not_lt.mpr below)
      have others : ∀ after ∈ rest, region.stop ≤ after.start := fun after there =>
        (before.trans_lt (inhabited.trans (later after there))).le
      exact ⟨canonical_consJoined own normal (List.forall_mem_cons.mpr ⟨before, others⟩),
        cover_consJoined own normal⟩
    · case isFalse above =>
      rw [not_le] at above
      have after : interval.stop ≤ region.start :=
        here.resolve_right fun before => absurd (own.trans_le before) (not_lt.mpr above.le)
      split
      · case isTrue touching =>
        have whole : interval.start < region.stop := above.trans own
        have before : ∀ after ∈ rest, region.stop ≤ after.start := fun after there =>
          (others after there).resolve_left fun stop => by
            have start := touching ▸ later after there
            exact absurd (start.trans (normal'.inhabited after there)) (not_lt.mpr stop)
        refine ⟨canonical_consJoined whole normal' before, ?_⟩
        rw [cover_consJoined whole normal', cover_cons, ← Set.union_assoc,
          Set.union_comm region.toSet]
        congr 1
        change Set.Ico _ _ = Set.Ico _ _ ∪ Set.Ico _ _
        rw [touching, Set.Ico_union_Ico_eq_Ico above.le own.le]
      · case isFalse apart' =>
        obtain ⟨normal'', same⟩ := ih normal' others
        have strict := lt_of_le_of_ne after apart'
        have later' := start_of_mem_insertJoined strict later
        refine ⟨Canonical.cons_iff.mpr ⟨inhabited, later', normal''⟩, ?_⟩
        rw [cover_cons, same, cover_cons, Set.union_left_comm]

end Insert

end Hakkun.Math

/-! ## Exclusive intervals -/

namespace Hakkun.Math

variable {α : Type} [LinearOrder α] {arena block old : Extent α} {blocks : Set (Extent α)}

/-- A block that can be added to some blocks. -/
structure Fresh (arena : Extent α) (blocks : Set (Extent α)) (block : Extent α) : Prop where
  low : arena.start ≤ block.start
  ordered : block.start ≤ block.stop
  high : block.stop ≤ arena.stop
  apart : ∀ other ∈ blocks, block.Apart other
  start : ∀ other ∈ blocks, block.start ≠ other.start

/-- Each block is one that can be added to the others. -/
def Exclusive (arena : Extent α) (blocks : Set (Extent α)) : Prop :=
  ∀ block ∈ blocks, Fresh arena (blocks \ {block}) block

namespace Exclusive

theorem empty : Exclusive arena ∅ := fun _ member => absurd member (Set.notMem_empty _)

theorem mono {fewer : Set (Extent α)} (exclusive : Exclusive arena blocks)
    (subset : fewer ⊆ blocks) : Exclusive arena fewer := by
  intro block member
  obtain ⟨low, ordered, high, apart, start⟩ := exclusive block (subset member)
  have others : fewer \ {block} ⊆ blocks \ {block} := Set.sdiff_subset_sdiff_left subset
  exact ⟨low, ordered, high, fun other there => apart other (others there),
    fun other there => start other (others there)⟩

theorem insert (exclusive : Exclusive arena blocks) (fresh : Fresh arena blocks block) :
    Exclusive arena (insert block blocks) := by
  intro own member
  rcases Set.mem_insert_iff.mp member with rfl | there
  · have others : Insert.insert own blocks \ {own} ⊆ blocks := by simp
    exact ⟨fresh.low, fresh.ordered, fresh.high, fun other listed => fresh.apart other
      (others listed), fun other listed => fresh.start other (others listed)⟩
  · obtain ⟨low, ordered, high, apart, start⟩ := exclusive own there
    refine ⟨low, ordered, high, fun other listed => ?_, fun other listed => ?_⟩
    · obtain ⟨either, different⟩ := listed
      rcases Set.mem_insert_iff.mp either with rfl | listed'
      · exact (fresh.apart own there).symm
      · exact apart other ⟨listed', different⟩
    · obtain ⟨either, different⟩ := listed
      rcases Set.mem_insert_iff.mp either with rfl | listed'
      · exact (fresh.start own there).symm
      · exact start other ⟨listed', different⟩

/-- A block is exchanged for one that can be added to the others. -/
theorem replace (exclusive : Exclusive arena blocks) (fresh : Fresh arena (blocks \ {old}) block) :
    Exclusive arena (Insert.insert block (blocks \ {old})) :=
  (exclusive.mono Set.sdiff_subset).insert fresh

/-- An arena ends earlier, but after all the blocks. -/
theorem shorten (exclusive : Exclusive arena blocks) {stop : α}
    (above : ∀ block ∈ blocks, block.stop ≤ stop) : Exclusive ⟨arena.start, stop⟩ blocks := by
  intro block member
  obtain ⟨low, ordered, -, apart, start⟩ := exclusive block member
  exact ⟨low, ordered, above block member, apart, start⟩

end Exclusive

end Hakkun.Math
