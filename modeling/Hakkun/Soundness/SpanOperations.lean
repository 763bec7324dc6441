import Hakkun.Machine.Core.Strays
import Hakkun.Model.Container.SpanOperations
import Hakkun.Soundness.Construct

/-! # Ranges of a span and its size

The last index of a range is a sum of 64 bits. Where it does not wrap around, the checks keep every
access within the span; where it does, the checks see a small index and the loop goes on past the
end. The room of a slice is a difference, which is only right for an offset within the span.
-/

namespace Hakkun.Util

open Machine Machine.Memory

variable {T : Type} {type : ObjectType T} {memory after : Memory T} {dest src : Address}

/-! ## Accesses of the loops -/

/-- An object cannot be constructed outside of the blocks, or from outside of them. -/
theorem wild_constructAt {value : Reference T} (rvalue : Bool)
    (invalid : ¬ (memory.Valid dest ∧ value.Valid memory)) :
    (constructAt type memory dest value rvalue).wild = true := by
  cases value with
  | temporary value => exact wild_construct (fun valid => invalid ⟨valid, trivial⟩) _
  | element src =>
    have touched := Keeps.touch memory src
    have built : ((memory.touch src).construct type dest (memory.read src)).wild = true := by
      by_cases source : memory.Valid src
      · refine wild_construct (fun valid => invalid ⟨?_, source⟩) _
        exact (touched.valid_iff dest).mp valid
      · exact (Keeps.construct _ dest _).wild (wild_touch source)
    cases rvalue with
    | false => exact built
    | true => exact built

/-- The loops of `copyOverlapping` and `constructMoveOverlapping`. -/
def overlapping (body : Address → Address → Memory T → Memory T) (memory : Memory T)
    (dest src : Address) (amount : ℕ) : Memory T :=
  if dest.2 < src.2 then loop (fun i => body (dest.offset i) (src.offset i)) amount memory
  else
    loop (fun i => body (dest.offset (amount - 1 - i)) (src.offset (amount - 1 - i))) amount memory

section Overlapping

variable {body : Address → Address → Memory T → Memory T} {amount : ℕ}

theorem calm_overlapping
    (calm : ∀ dest src memory, memory.Valid dest → memory.Valid src →
      Calm memory (body dest src memory))
    (valid : ∀ i < amount, memory.Valid (dest.offset i) ∧ memory.Valid (src.offset i)) :
    Calm memory (overlapping body memory dest src amount) := by
  have round (i : ℕ) (bound : i < amount) (between : Memory T) (kept : Calm memory between) :
      Calm between (body (dest.offset i) (src.offset i) between) :=
    calm _ _ between ((kept.valid_iff _).mpr (valid i bound).1)
      ((kept.valid_iff _).mpr (valid i bound).2)
  rw [overlapping]
  split
  · exact calm_loop round
  · exact calm_loop fun i bound between kept => round (amount - 1 - i) (by omega) between kept

theorem wild_overlapping (keeps : ∀ dest src memory, Keeps memory (body dest src memory))
    (strays : ∀ dest src memory, ¬ (memory.Valid dest ∧ memory.Valid src) →
      (body dest src memory).wild = true)
    {i : ℕ} (bound : i < amount)
    (invalid : ¬ (memory.Valid (dest.offset i) ∧ memory.Valid (src.offset i))) :
    (overlapping body memory dest src amount).wild = true := by
  have round (between : Memory T) (kept : Keeps memory between) :
      (body (dest.offset i) (src.offset i) between).wild = true := by
    apply strays
    rwa [kept.valid_iff, kept.valid_iff]
  rw [overlapping]
  split
  · exact wild_loop bound (fun _ _ => keeps _ _ _) round
  · have later : amount - 1 - i < amount := by omega
    refine wild_loop later (fun _ _ => keeps _ _ _) ?_
    rw [show amount - 1 - (amount - 1 - i) = i by omega]
    exact round

end Overlapping

theorem calm_copyAt (memory : Memory T) (valid : memory.Valid dest) (source : memory.Valid src) :
    Calm memory (copyAt type dest src memory) := by
  have gone : Calm memory (memory.destroy type dest) := Calm.destroy valid
  have value : (Reference.element src).Valid (memory.destroy type dest) :=
    (gone.valid_iff src).mpr source
  exact gone.trans (calm_constructAt ((gone.valid_iff dest).mpr valid) value false)

theorem keeps_copyAt (memory : Memory T) : Keeps memory (copyAt type dest src memory) :=
  (Keeps.destroy memory dest).trans (keeps_constructAt _ dest (.element src) false)

theorem wild_copyAt (invalid : ¬ (memory.Valid dest ∧ memory.Valid src)) :
    (copyAt type dest src memory).wild = true := by
  have gone : Keeps memory (memory.destroy type dest) := Keeps.destroy memory dest
  apply wild_constructAt
  change ¬ (_ ∧ Memory.Valid _ src)
  rwa [gone.valid_iff, gone.valid_iff]

theorem keeps_constructMoveDestroy (memory : Memory T) :
    Keeps memory (constructMoveDestroy type dest src memory) :=
  (keeps_constructAt memory dest (.element src) true).trans (Keeps.destroy _ src)

theorem wild_constructMoveDestroy (invalid : ¬ (memory.Valid dest ∧ memory.Valid src)) :
    (constructMoveDestroy type dest src memory).wild = true := by
  have value : ¬ (memory.Valid dest ∧ (Reference.element src).Valid memory) := invalid
  exact (Keeps.destroy _ src).wild (wild_constructAt true value)

theorem wild_fill {value : Reference T} {amount i : ℕ} (bound : i < amount)
    (invalid : ¬ memory.Valid (dest.offset i)) :
    (fill type memory dest amount value).wild = true := by
  refine wild_loop bound (fun i between => ?_) fun between kept => ?_
  · exact (Keeps.destroy between (dest.offset i)).trans (keeps_constructAt _ _ value false)
  · have gone : Keeps memory (between.destroy type (dest.offset i)) :=
      kept.trans (Keeps.destroy between (dest.offset i))
    refine wild_constructAt false fun valid => invalid ?_
    exact (gone.valid_iff _).mp valid.1

end Hakkun.Util

namespace Hakkun.Container

open Machine Machine.Memory Util

/-- A call with a range of a span. -/
inductive SpanCall where
  | slice (offset amount : U64)
  | fill (dstIdx amount : U64)
  | copy (dstIdx srcIdx amount : U64)
  | move (dstIdx srcIdx amount : U64)

namespace SpanStorage

variable {T : Type} {type : ObjectType T} {span : SpanStorage} {memory : Memory T}
  {dstIdx srcIdx amount : U64}

/-- The elements of the span are the slots of a block. -/
structure Covers (span : SpanStorage) (memory : Memory T) : Prop where
  block : memory.blocks[span.getData]? = some span.getSize.toNat
  allocated : span.getData ∉ memory.freed
  calm : memory.wild = false

/-- What a part of a span has to be. -/
structure Denotes (span : SpanStorage) (offset amount : U64) (part : SpanSlice) : Prop where
  inside : ∀ i < part.size.toNat, ∃ index < span.getSize.toNat,
    part.data.offset i = (span.getData, index)
  exact : ∀ index, (∃ i < part.size.toNat, part.data.offset i = (span.getData, index)) ↔
    offset.toNat ≤ index ∧
      index < if amount = 0 then span.getSize.toNat else offset.toNat + amount.toNat

/-- A call aborts, or it accesses elements of the span alone. -/
def Safe (type : ObjectType T) (span : SpanStorage) : SpanCall → Prop
  | .slice offset amount => ∀ part, span.slice offset amount = some part →
    span.Denotes offset amount part
  | .fill dstIdx amount => ∀ (memory after : Memory T) (value : Reference T), span.Covers memory →
    value.Valid memory → span.fill type memory dstIdx amount value = some after →
      after.wild = false
  | .copy dstIdx srcIdx amount => ∀ memory after : Memory T, span.Covers memory →
    span.copy type memory dstIdx srcIdx amount = some after → after.wild = false
  | .move dstIdx srcIdx amount => ∀ memory after : Memory T, span.Covers memory →
    span.move type memory dstIdx srcIdx amount = some after → after.wild = false

/-- The last index of a range does not fit in 64 bits. -/
def Wraps (index amount : U64) : Prop := 2 ^ 64 ≤ index.toNat + (amount.toNat - 1)

/-- The last index of a range fits and is refused. -/
def Refused (span : SpanStorage) (index amount : U64) : Prop :=
  ¬ Wraps index amount ∧ span.getSize.toNat ≤ index.toNat + (amount.toNat - 1)

/-- Two ranges that are not accessed, are refused, or have last indexes that fit. -/
def RangesFit (span : SpanStorage) (dstIdx srcIdx amount : U64) : Prop :=
  dstIdx = srcIdx ∨ amount = 0 ∨ span.getSize ≤ dstIdx ∨ span.getSize ≤ srcIdx ∨
    span.Refused dstIdx amount ∨ span.Refused srcIdx amount ∨
      (¬ Wraps dstIdx amount ∧ ¬ Wraps srcIdx amount)

/-- The condition on the arguments of a call. -/
def Fits (span : SpanStorage) : SpanCall → Prop
  | .slice offset amount => offset ≤ span.getSize ∨
    (amount ≠ 0 ∧ 2 ^ 64 + span.getSize.toNat < offset.toNat + amount.toNat)
  | .fill dstIdx amount => amount = 0 ∨ span.getSize ≤ dstIdx ∨ ¬ Wraps dstIdx amount
  | .copy dstIdx srcIdx amount => span.RangesFit dstIdx srcIdx amount
  | .move dstIdx srcIdx amount => span.RangesFit dstIdx srcIdx amount

/-! ## Memory -/

theorem Covers.valid_iff (covers : span.Covers memory) (index : U64) (i : ℕ) :
    memory.Valid ((span.element index).offset i) ↔ index.toNat + i < span.getSize.toNat := by
  rw [Valid, element, Address.offset, covers.block]
  exact and_iff_left covers.allocated

/-- A memory with a block for the span. -/
def ownMemory (T : Type) (span : SpanStorage) : Memory T where
  blocks := List.replicate span.getData 0 ++ [span.getSize.toNat]

theorem covers_ownMemory (T : Type) (span : SpanStorage) : span.Covers (span.ownMemory T) where
  block := by
    rw [ownMemory, List.getElem?_append_right (List.length_replicate.le), List.length_replicate,
      Nat.sub_self]
    rfl
  allocated := List.not_mem_nil
  calm := rfl

/-! ## Slices -/

theorem amount_pos (present : amount ≠ 0) : 0 < amount.toNat :=
  Nat.pos_of_ne_zero fun zero => present (BitVec.eq_of_toNat_eq zero)

/-- The room from an offset within the span. -/
theorem denotes_of_le {offset : U64} (within : offset ≤ span.getSize) {part : SpanSlice}
    (given : span.slice offset amount = some part) : span.Denotes offset amount part := by
  have room : (span.getSize - offset).toNat = span.getSize.toNat - offset.toNat :=
    BitVec.toNat_sub_of_le within
  have order : offset.toNat ≤ span.getSize.toNat := BitVec.le_def.mp within
  have place (i index : ℕ) : (span.element offset).offset i = (span.getData, index) ↔
      offset.toNat + i = index := Prod.ext_iff.trans (and_iff_right rfl)
  rw [slice] at given
  split_ifs at given with none_given fits fits <;> cases given
  · constructor <;> simp only [place, room, if_pos none_given]
    · exact fun i bound => ⟨_, by omega, rfl⟩
    · intro index
      constructor
      · rintro ⟨i, bound, rfl⟩
        omega
      · exact fun bounds => ⟨index - offset.toNat, by omega, by omega⟩
  · rw [BitVec.le_def, room] at fits
    constructor <;> simp only [place, if_neg none_given]
    · exact fun i bound => ⟨_, by omega, rfl⟩
    · intro index
      constructor
      · rintro ⟨i, bound, rfl⟩
        omega
      · exact fun bounds => ⟨index - offset.toNat, by omega, by omega⟩

theorem slice_safe_iff (type : ObjectType T) (span : SpanStorage) (offset amount : U64) :
    span.Safe type (.slice offset amount) ↔ span.Fits (.slice offset amount) := by
  rcases Nat.lt_or_ge span.getSize.toNat offset.toNat with past | within
  · have room : (span.getSize - offset).toNat =
        2 ^ 64 + span.getSize.toNat - offset.toNat := by
      have := offset.isLt
      rw [BitVec.toNat_sub]
      omega
    have outside {part : SpanSlice} (given : span.slice offset amount = some part)
        (some_element : 0 < part.size.toNat) (begins : part.data = span.element offset) :
        ¬ span.Denotes offset amount part := by
      rintro ⟨inside, _⟩
      obtain ⟨index, bound, same⟩ := inside 0 some_element
      rw [begins] at same
      obtain rfl : offset.toNat = index := congrArg Prod.snd same
      omega
    have notWithin : ¬ offset ≤ span.getSize := by
      rw [BitVec.le_def]
      omega
    constructor
    · intro safe
      refine .inr (by_contra fun fits => ?_)
      rcases eq_or_ne amount 0 with none_given | present
      · have given : span.slice offset amount =
            some ⟨span.element offset, span.getSize - offset⟩ := by
          rw [slice, if_pos none_given, if_pos (BitVec.le_refl _)]
        have := offset.isLt
        exact outside given (by rw [room]; omega) rfl (safe _ given)
      · have given : span.slice offset amount = some ⟨span.element offset, amount⟩ := by
          rw [slice, if_neg present, if_pos]
          rw [BitVec.le_def, room]
          by_contra large
          exact fits ⟨present, by omega⟩
        exact outside given (amount_pos present) rfl (safe _ given)
    · rintro (absurd_within | ⟨present, large⟩) part given
      · exact absurd absurd_within notWithin
      · rw [slice, if_neg present, if_neg] at given
        · cases given
        · rw [BitVec.le_def, room]
          omega
  · exact iff_of_true (fun part given => denotes_of_le (BitVec.le_def.mpr within) given)
      (.inl (BitVec.le_def.mpr within))

/-! ## Ranges -/

/-- The last index, as the checks compute it. -/
theorem last_toNat (index : U64) (present : amount ≠ 0) :
    (index + (amount - 1)).toNat = (index.toNat + (amount.toNat - 1)) % 2 ^ 64 := by
  have one : (1 : U64).toNat ≤ amount.toNat := amount_pos present
  rw [BitVec.toNat_add, BitVec.toNat_sub_of_le (BitVec.le_def.mpr one)]
  rfl

/-- The check of a last index that wraps around passes. -/
theorem last_lt_of_wraps {index : U64} (present : amount ≠ 0) (inside : index < span.getSize)
    (wraps : Wraps index amount) : index + (amount - 1) < span.getSize := by
  have small := index.isLt
  have large := amount.isLt
  rw [Wraps] at wraps
  rw [BitVec.lt_def] at inside ⊢
  rw [last_toNat index present]
  omega

theorem last_lt_iff {index : U64} (present : amount ≠ 0) (fits : ¬ Wraps index amount) :
    index + (amount - 1) < span.getSize ↔
      index.toNat + (amount.toNat - 1) < span.getSize.toNat := by
  rw [Wraps, Nat.not_le] at fits
  rw [BitVec.lt_def, last_toNat index present, Nat.mod_eq_of_lt fits]

/-- A range whose last index wraps around has an index past the end. -/
theorem exists_past {index : U64} (inside : index < span.getSize) (wraps : Wraps index amount) :
    ∃ i < amount.toNat, span.getSize.toNat ≤ index.toNat + i := by
  have := span.getSize.isLt
  rw [Wraps] at wraps
  rw [BitVec.lt_def] at inside
  exact ⟨span.getSize.toNat - index.toNat, by omega, by omega⟩

theorem fill_safe_iff (type : ObjectType T) (span : SpanStorage) (dstIdx amount : U64) :
    span.Safe type (.fill dstIdx amount) ↔ span.Fits (.fill dstIdx amount) := by
  constructor
  · intro safe
    by_contra! wraps
    simp only [Fits, not_or, not_not, BitVec.not_le] at wraps
    obtain ⟨present, inside, wraps⟩ := wraps
    have covers := covers_ownMemory T span
    have value : (Reference.element (span.element dstIdx)).Valid (span.ownMemory T) :=
      (covers.valid_iff dstIdx 0).mpr (BitVec.lt_def.mp inside)
    obtain ⟨i, bound, past⟩ := exists_past inside wraps
    have strayed := safe _ _ _ covers value
      ((if_neg present).trans (if_pos ⟨inside, last_lt_of_wraps present inside wraps⟩))
    rw [wild_fill bound (by rw [covers.valid_iff]; omega)] at strayed
    cases strayed
  · intro fits memory after value covers source given
    rw [fill] at given
    split_ifs at given with absent checks
    · cases given
      exact covers.calm
    · cases given
      obtain ⟨inside, last⟩ := checks
      have whole : ¬ Wraps dstIdx amount :=
        (fits.resolve_left absent).resolve_left (BitVec.not_le.mpr inside)
      rw [last_lt_iff absent whole] at last
      refine (calm_fill (fun i bound => ?_) source).wild.trans covers.calm
      rw [covers.valid_iff]
      omega

theorem checked_safe_iff {body : Address → Address → Memory T → Memory T}
    (calm : ∀ dest src memory, memory.Valid dest → memory.Valid src →
      Calm memory (body dest src memory))
    (keeps : ∀ dest src memory, Keeps memory (body dest src memory))
    (strays : ∀ dest src memory, ¬ (memory.Valid dest ∧ memory.Valid src) →
      (body dest src memory).wild = true) (span : SpanStorage) (dstIdx srcIdx amount : U64) :
    (∀ memory after : Memory T, span.Covers memory →
      span.checked memory dstIdx srcIdx amount (overlapping body memory (span.element dstIdx)
        (span.element srcIdx) amount.toNat) = some after → after.wild = false) ↔
      span.RangesFit dstIdx srcIdx amount := by
  constructor
  · intro safe
    by_contra fits
    simp only [RangesFit, Refused, not_or, BitVec.not_le] at fits
    obtain ⟨apart, present, inside, source, first, second, wraps⟩ := fits
    have covers := covers_ownMemory T span
    have last {index : U64} (inside : index < span.getSize)
        (accepted : ¬ (¬ Wraps index amount ∧
          span.getSize.toNat ≤ index.toNat + (amount.toNat - 1))) :
        index + (amount - 1) < span.getSize := by
      by_cases wrapped : Wraps index amount
      · exact last_lt_of_wraps present inside wrapped
      · rw [last_lt_iff present wrapped]
        by_contra large
        exact accepted ⟨wrapped, Nat.not_lt.mp large⟩
    have strayed := safe _ _ covers
      ((if_neg (not_or.mpr ⟨apart, present⟩)).trans
        (if_pos ⟨inside, source, last inside first, last source second⟩))
    obtain ⟨i, bound, past⟩ : ∃ i < amount.toNat,
        ¬ (dstIdx.toNat + i < span.getSize.toNat ∧ srcIdx.toNat + i < span.getSize.toNat) := by
      rcases not_and_or.mp wraps with wrapped | wrapped
      · obtain ⟨i, bound, past⟩ := exists_past inside (not_not.mp wrapped)
        exact ⟨i, bound, by omega⟩
      · obtain ⟨i, bound, past⟩ := exists_past source (not_not.mp wrapped)
        exact ⟨i, bound, by omega⟩
    rw [← covers.valid_iff, ← covers.valid_iff] at past
    cases strayed.symm.trans (wild_overlapping keeps strays bound past)
  · intro fits memory after covers given
    rw [checked] at given
    split_ifs at given with skipped checks
    · cases given
      exact covers.calm
    · cases given
      obtain ⟨inside, source, last, lastSource⟩ := checks
      obtain ⟨apart, present⟩ := not_or.mp skipped
      obtain ⟨whole, wholeSource⟩ : ¬ Wraps dstIdx amount ∧ ¬ Wraps srcIdx amount := by
        rcases fits with same | absent | outside | outside | refused | refused | both
        · exact absurd same apart
        · exact absurd absent present
        · exact absurd outside (BitVec.not_le.mpr inside)
        · exact absurd outside (BitVec.not_le.mpr source)
        · exact absurd ((last_lt_iff present refused.1).mp last) (Nat.not_lt.mpr refused.2)
        · exact absurd ((last_lt_iff present refused.1).mp lastSource) (Nat.not_lt.mpr refused.2)
        · exact both
      rw [last_lt_iff present whole] at last
      rw [last_lt_iff present wholeSource] at lastSource
      refine (calm_overlapping calm fun i bound => ?_).wild.trans covers.calm
      rw [covers.valid_iff, covers.valid_iff]
      omega

/-- A call with a range accesses the span alone under the condition on its arguments, and only
then. -/
theorem safe_iff (type : ObjectType T) (span : SpanStorage) (call : SpanCall) :
    span.Safe type call ↔ span.Fits call := by
  cases call with
  | slice offset amount => exact slice_safe_iff type span offset amount
  | fill dstIdx amount => exact fill_safe_iff type span dstIdx amount
  | copy dstIdx srcIdx amount =>
    exact checked_safe_iff (fun _ _ memory => calm_copyAt memory) (fun _ _ => keeps_copyAt)
      (fun _ _ _ => wild_copyAt) span dstIdx srcIdx amount
  | move dstIdx srcIdx amount =>
    exact checked_safe_iff (fun _ _ memory => calm_constructMoveDestroy)
      (fun _ _ => keeps_constructMoveDestroy) (fun _ _ _ => wild_constructMoveDestroy) span dstIdx
      srcIdx amount

/-- Bytes, with nothing to see of their objects. -/
def octet : ObjectType (BitVec 8) := ⟨true, id, 1, fun _ _ => rfl, by decide⟩

/-- Two calls on a span of three elements: a part from index 4 on has nearly as many elements as
there are addresses, and filling from index 2 on goes past the end. -/
theorem not_safe :
    ¬ Safe octet ⟨0, 3⟩ (.slice 4 0) ∧ ¬ Safe octet ⟨0, 3⟩ (.fill 2 (-1)) := by
  constructor
  · intro safe
    obtain ⟨index, bound, same⟩ := (safe ⟨(0, 4), -1⟩ rfl).inside 0 (by decide)
    obtain rfl : 4 = index := congrArg Prod.snd same
    exact absurd bound (by decide)
  · intro safe
    rcases (fill_safe_iff octet _ _ _).mp safe with absent | outside | fits
    · exact absurd absent (by decide)
    · exact absurd outside (by decide)
    · exact fits (show 2 ^ 64 ≤ (2 : U64).toNat + ((-1 : U64).toNat - 1) by decide)

end SpanStorage

end Hakkun.Container
