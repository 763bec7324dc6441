import Hakkun.Machine.Core.Fuel
import Hakkun.Model.Ro.Dynamic

/-! # The walk over the relocation tables

The dynamic section names up to three tables. The loops over the `DT_REL` and `DT_RELA` tables stop
at their sizes; the loop over the PLT table stops at the first offset of zero, whatever
`DT_PLTRELSZ` says, so it reads the entry behind the table to find its end.
-/

namespace Hakkun.Ro

/-! ## The tables of a dynamic section -/

/-- The value of the last entry with a tag. -/
def valueOf (tag : U64) (entries : List ElfDyn) : Option U64 :=
  (entries.reverse.find? fun entry => entry.d_tag = tag).map (·.d_un)

theorem valueOf_cons (tag : U64) (entry : ElfDyn) (entries : List ElfDyn) :
    valueOf tag (entry :: entries) =
      (valueOf tag entries).or (if entry.d_tag = tag then some entry.d_un else none) := by
  rw [valueOf, valueOf, List.reverse_cons, List.find?_append, Option.map_or]
  congr 1
  rw [List.find?_cons, List.find?_nil]
  split <;> simp_all

/-- A table of relocation entries: where it is, in which format and how many bytes. -/
structure Extent where
  address : Ptr
  format : Format
  size : ℕ

namespace Extent

def count (extent : Extent) : ℕ := extent.size / extent.format.entrySize

/-- One callback for each entry. -/
def calls (extent : Extent) : List Call :=
  (List.range extent.count).map fun i => ⟨extent.format, entryAt extent.address extent.format i⟩

/-- The offset of entry `i`. -/
def offset (memory : Memory) (extent : Extent) (i : ℕ) : U64 :=
  load memory (entryAt extent.address extent.format i)

/-- The first offset of zero is that of the entry behind the table, and it is within the bytes of
the table. -/
def Terminated (memory : Memory) (extent : Extent) : Prop :=
  (∀ i < extent.count, extent.offset memory i ≠ 0) ∧ extent.offset memory extent.count = 0 ∧
    extent.count * extent.format.entrySize + 8 ≤ extent.size

instance (memory : Memory) (extent : Extent) : Decidable (extent.Terminated memory) :=
  inferInstanceAs (Decidable (_ ∧ _ ∧ _))

end Extent

/-- The number of bytes that a tag gives. -/
def sizeOf (tag : U64) (dynamic : List ElfDyn) : ℕ :=
  ((valueOf tag (Detail.beforeNull dynamic)).getD 0).toNat

/-- The format that `DT_PLTREL` gives. -/
def pltFormat (dynamic : List ElfDyn) : Format :=
  if (valueOf dtPltRel (Detail.beforeNull dynamic)).getD dtRela = dtRela then .rela else .rel

/-- A table whose address and size two tags give. -/
def extentOf (moduleBase : Ptr) (dynamic : List ElfDyn) (tag sizeTag : U64) (format : Format) :
    Option Extent :=
  (valueOf tag (Detail.beforeNull dynamic)).map fun offset =>
    ⟨moduleBase + offset, format, sizeOf sizeTag dynamic⟩

/-- Each table of a dynamic section, where it has one. -/
def extent (moduleBase : Ptr) (dynamic : List ElfDyn) : Table → Option Extent
  | .plt => extentOf moduleBase dynamic dtJmpRel dtPltRelSz (pltFormat dynamic)
  | .rel => extentOf moduleBase dynamic dtRel dtRelSz .rel
  | .rela => extentOf moduleBase dynamic dtRela dtRelaSz .rela

/-- The entries of a table, none where there is no table. -/
def callsOf (moduleBase : Ptr) (dynamic : List ElfDyn) (table : Table) : List Call :=
  (extent moduleBase dynamic table).elim [] Extent.calls

/-- A read within a table. -/
def TableRead.Inside (moduleBase : Ptr) (dynamic : List ElfDyn) (read : TableRead) : Prop :=
  ∃ table, extent moduleBase dynamic read.table = some table ∧ read.offset + read.size ≤ table.size

/-- The walk ends, it has called back once for each entry of the three tables and for nothing else,
and it has read nothing but the tables. -/
def Walked (memory : Memory) (moduleBase : Ptr) (dynamic : List ElfDyn)
    (data : Detail.DynamicData) : Prop :=
  ∃ walk, Machine.Core.Ends (data.forEachPltRelRela memory) (some walk) ∧
    walk.calls.Perm (callsOf moduleBase dynamic .plt ++ callsOf moduleBase dynamic .rel ++
      callsOf moduleBase dynamic .rela) ∧
    ∀ read ∈ walk.reads, read.Inside moduleBase dynamic

/-- No entry is lost and none is invented: a table at address zero is empty, and the PLT table ends
itself. -/
def Delimited (memory : Memory) (moduleBase : Ptr) (dynamic : List ElfDyn) : Prop :=
  (∀ table which, extent moduleBase dynamic which = some table → table.address = 0 →
    table.count = 0) ∧
  ∀ table, extent moduleBase dynamic .plt = some table → table.address ≠ 0 →
    table.Terminated memory

/-! ## What the section is parsed to -/

namespace Detail.DynamicData

variable {moduleBase : Ptr} {memory : Memory}

private theorem of_guard {α : Type} {c : Prop} [Decidable c] {given result : α}
    (checked : (if c then some given else none) = some result) : given = result := by
  split at checked
  · exact Option.some.inj checked
  · cases checked

/-- An entry sets the field of its tag and no other. -/
theorem parseEntry_eq {data next : DynamicData} {entry : ElfDyn}
    (parsed : parseEntry moduleBase data entry = some next) :
    next = { data with
      pltRelSize := if entry.d_tag = dtPltRelSz then entry.d_un else data.pltRelSize
      rel := if entry.d_tag = dtRel then moduleBase + entry.d_un else data.rel
      rela := if entry.d_tag = dtRela then moduleBase + entry.d_un else data.rela
      plt := if entry.d_tag = dtJmpRel then moduleBase + entry.d_un else data.plt
      relSize := if entry.d_tag = dtRelSz then entry.d_un else data.relSize
      relaSize := if entry.d_tag = dtRelaSz then entry.d_un else data.relaSize
      isRela := if entry.d_tag = dtPltRel then entry.d_un == dtRela else data.isRela } := by
  obtain ⟨tag, value⟩ := entry
  rcases Decidable.em (tag ∈ [dtPltRelSz, dtRel, dtRela, dtJmpRel, dtRelSz, dtRelaSz, dtRelEnt,
    dtRelaEnt, dtSymEnt, dtPltRel]) with known | unknown
  · simp only [List.mem_cons, List.not_mem_nil, or_false] at known
    rcases known with rfl | rfl | rfl | rfl | rfl | rfl | rfl | rfl | rfl | rfl <;>
      first
        | exact (Option.some.inj parsed).symm
        | exact (of_guard parsed).symm
  · simp only [List.mem_cons, List.not_mem_nil, or_false, not_or] at unknown
    obtain ⟨pltRelSz, rel, rela, jmpRel, relSz, relaSz, relEnt, relaEnt, symEnt, pltRel⟩ := unknown
    rw [parseEntry, if_neg pltRelSz, if_neg rel, if_neg rela, if_neg jmpRel, if_neg relSz,
      if_neg relaSz, if_neg relEnt, if_neg relaEnt, if_neg symEnt, if_neg pltRel] at parsed
    simp only [if_neg pltRelSz, if_neg rel, if_neg rela, if_neg jmpRel, if_neg relSz, if_neg relaSz,
      if_neg pltRel]
    exact (Option.some.inj parsed).symm

/-- A field that only the entries of one tag set keeps the value of the last one. -/
theorem foldlM_field {β : Type} (field : DynamicData → β) (tag : U64) (value : U64 → β)
    (step : ∀ {data next : DynamicData} {entry : ElfDyn},
      parseEntry moduleBase data entry = some next →
        field next = if entry.d_tag = tag then value entry.d_un else field data)
    {entries : List ElfDyn} {data result : DynamicData}
    (parsed : entries.foldlM (parseEntry moduleBase) data = some result) :
    field result = (valueOf tag entries).elim (field data) value := by
  induction entries generalizing data with
  | nil =>
    obtain rfl : data = result := Option.some.inj parsed
    rfl
  | cons entry rest ih =>
    rw [List.foldlM_cons, Option.bind_eq_bind, Option.bind_eq_some_iff] at parsed
    obtain ⟨next, stepped, later⟩ := parsed
    rw [ih later, step stepped, valueOf_cons]
    cases valueOf tag rest with
    | some found => rfl
    | none => split <;> rfl

/-- No tag sets the counts. -/
theorem foldlM_counts {entries : List ElfDyn} {data result : DynamicData}
    (parsed : entries.foldlM (parseEntry moduleBase) data = some result) :
    result.relCount = data.relCount ∧ result.relaCount = data.relaCount := by
  induction entries generalizing data with
  | nil =>
    obtain rfl : data = result := Option.some.inj parsed
    exact ⟨rfl, rfl⟩
  | cons entry rest ih =>
    rw [List.foldlM_cons, Option.bind_eq_bind, Option.bind_eq_some_iff] at parsed
    obtain ⟨next, stepped, later⟩ := parsed
    obtain ⟨rel, rela⟩ := ih later
    rw [rel, rela, parseEntry_eq stepped]
    exact ⟨rfl, rfl⟩

/-- The iterations over a table that is not at address zero. -/
def visitsOf (table : Table) (extent : Option Extent) : Walk :=
  extent.elim ⟨[], []⟩ fun extent =>
    if extent.address = 0 then ⟨[], []⟩
    else visits table extent.address extent.format 0 extent.count

variable {dynamic : List ElfDyn} {data : DynamicData}

private theorem elim_address {tag sizeTag : U64} {format : Format} :
    (valueOf tag (beforeNull dynamic)).elim 0 (moduleBase + ·) =
      (extentOf moduleBase dynamic tag sizeTag format).elim 0 (·.address) := by
  rw [extentOf, Option.elim_map]
  rfl

private theorem elim_size {tag : U64} :
    ((valueOf tag (beforeNull dynamic)).elim 0 fun size => size).toNat = sizeOf tag dynamic := by
  rw [sizeOf]
  cases valueOf tag (beforeNull dynamic) <;> rfl

/-- A loop that is bounded by a count which is computed from the size. -/
private theorem guarded_visits {table : Table} {address : Ptr} {size count : U64} {format : Format}
    {tag sizeTag : U64}
    (at_ : address = (extentOf moduleBase dynamic tag sizeTag format).elim 0 (·.address))
    (sized : size.toNat = sizeOf sizeTag dynamic)
    (counted : count.toNat = sizeOf sizeTag dynamic / format.entrySize) :
    (if address = 0 ∨ size = 0 ∨ count = 0 then ⟨[], []⟩
      else visits table address format 0 count.toNat) =
      visitsOf table (extentOf moduleBase dynamic tag sizeTag format) := by
  rw [extentOf] at at_ ⊢
  cases valued : valueOf tag (beforeNull dynamic) with
  | none =>
    rw [valued] at at_
    exact if_pos (Or.inl at_)
  | some offset =>
    rw [valued] at at_
    obtain rfl : address = moduleBase + offset := at_
    change _ = if moduleBase + offset = 0 then (⟨[], []⟩ : Walk)
      else visits table (moduleBase + offset) format 0 (sizeOf sizeTag dynamic / format.entrySize)
    split
    · rename_i skipped
      split
      · rfl
      · rename_i nonzero
        have empty : sizeOf sizeTag dynamic / format.entrySize = 0 := by
          rcases skipped with absurd | none | none
          · exact (nonzero absurd).elim
          · rw [← sized, none]
            exact Nat.zero_div _
          · rw [← counted, none]
            rfl
        rw [empty]
        rfl
    · rename_i taken
      rw [if_neg fun zero => taken (Or.inl zero), counted]

private theorem count_toNat {size : U64} (format : Format) :
    (size / BitVec.ofNat 64 format.entrySize).toNat = size.toNat / format.entrySize := by
  rw [BitVec.toNat_udiv]
  cases format <;> rfl

private theorem size_toNat {size : U64} {tag : U64}
    (last : size = (valueOf tag (beforeNull dynamic)).elim 0 fun size => size) :
    size.toNat = sizeOf tag dynamic := by
  rw [last]
  exact elim_size

/-! The fields of the parsed data, by the tags of the section. -/

theorem rel_address (parsed : parseDynamic moduleBase dynamic = some data) :
    data.rel = (extent moduleBase dynamic .rel).elim 0 (·.address) := by
  obtain ⟨raw, folded, rfl⟩ := Option.map_eq_some_iff.mp parsed
  exact (foldlM_field rel dtRel (moduleBase + ·)
    (fun stepped => congrArg rel (parseEntry_eq stepped)) folded).trans elim_address

theorem rela_address (parsed : parseDynamic moduleBase dynamic = some data) :
    data.rela = (extent moduleBase dynamic .rela).elim 0 (·.address) := by
  obtain ⟨raw, folded, rfl⟩ := Option.map_eq_some_iff.mp parsed
  exact (foldlM_field rela dtRela (moduleBase + ·)
    (fun stepped => congrArg rela (parseEntry_eq stepped)) folded).trans elim_address

theorem plt_address (parsed : parseDynamic moduleBase dynamic = some data) :
    data.plt = (extent moduleBase dynamic .plt).elim 0 (·.address) := by
  obtain ⟨raw, folded, rfl⟩ := Option.map_eq_some_iff.mp parsed
  exact (foldlM_field plt dtJmpRel (moduleBase + ·)
    (fun stepped => congrArg plt (parseEntry_eq stepped)) folded).trans elim_address

theorem rel_sized (parsed : parseDynamic moduleBase dynamic = some data) :
    data.relSize.toNat = sizeOf dtRelSz dynamic := by
  obtain ⟨raw, folded, rfl⟩ := Option.map_eq_some_iff.mp parsed
  exact size_toNat (foldlM_field relSize dtRelSz (fun size => size)
    (fun stepped => congrArg relSize (parseEntry_eq stepped)) folded)

theorem rela_sized (parsed : parseDynamic moduleBase dynamic = some data) :
    data.relaSize.toNat = sizeOf dtRelaSz dynamic := by
  obtain ⟨raw, folded, rfl⟩ := Option.map_eq_some_iff.mp parsed
  exact size_toNat (foldlM_field relaSize dtRelaSz (fun size => size)
    (fun stepped => congrArg relaSize (parseEntry_eq stepped)) folded)

theorem plt_sized (parsed : parseDynamic moduleBase dynamic = some data) :
    data.pltRelSize.toNat = sizeOf dtPltRelSz dynamic := by
  obtain ⟨raw, folded, rfl⟩ := Option.map_eq_some_iff.mp parsed
  exact size_toNat (foldlM_field pltRelSize dtPltRelSz (fun size => size)
    (fun stepped => congrArg pltRelSize (parseEntry_eq stepped)) folded)

theorem rel_counted (parsed : parseDynamic moduleBase dynamic = some data) :
    data.relCount.toNat = sizeOf dtRelSz dynamic / Format.rel.entrySize := by
  rw [← rel_sized parsed, ← count_toNat]
  obtain ⟨raw, folded, rfl⟩ := Option.map_eq_some_iff.mp parsed
  exact congrArg BitVec.toNat (if_pos (foldlM_counts folded).1)

theorem rela_counted (parsed : parseDynamic moduleBase dynamic = some data) :
    data.relaCount.toNat = sizeOf dtRelaSz dynamic / Format.rela.entrySize := by
  rw [← rela_sized parsed, ← count_toNat]
  obtain ⟨raw, folded, rfl⟩ := Option.map_eq_some_iff.mp parsed
  exact congrArg BitVec.toNat (if_pos (foldlM_counts folded).2)

theorem plt_format (parsed : parseDynamic moduleBase dynamic = some data) :
    data.pltFormat = Ro.pltFormat dynamic := by
  obtain ⟨raw, folded, rfl⟩ := Option.map_eq_some_iff.mp parsed
  have isRela : raw.setCounts.isRela = (valueOf dtPltRel (beforeNull dynamic)).elim true
      (· == dtRela) := foldlM_field isRela dtPltRel (· == dtRela)
    (fun stepped => congrArg isRela (parseEntry_eq stepped)) folded
  rw [pltFormat, isRela, Ro.pltFormat]
  cases valueOf dtPltRel (beforeNull dynamic) with
  | none => rfl
  | some value => simp only [Option.elim_some, beq_iff_eq, Option.getD_some]

theorem forEachRel_eq (parsed : parseDynamic moduleBase dynamic = some data) :
    data.forEachRel = visitsOf .rel (extent moduleBase dynamic .rel) :=
  guarded_visits (rel_address parsed) (rel_sized parsed) (rel_counted parsed)

theorem forEachRela_eq (parsed : parseDynamic moduleBase dynamic = some data) :
    data.forEachRela = visitsOf .rela (extent moduleBase dynamic .rela) :=
  guarded_visits (rela_address parsed) (rela_sized parsed) (rela_counted parsed)

theorem forEachPlt_eq (parsed : parseDynamic moduleBase dynamic = some data) (fuel : ℕ) :
    data.forEachPlt memory fuel =
      (extent moduleBase dynamic .plt).elim (some ⟨[], []⟩) fun table =>
        if table.address = 0 then some ⟨[], []⟩
        else pltLoop memory table.address table.format fuel 0 := by
  rw [forEachPlt, plt_format parsed, plt_address parsed, extent, extentOf]
  cases valueOf dtJmpRel (beforeNull dynamic) <;> rfl

/-! ## The loop over the PLT table -/

variable {plt : Ptr} {format : Format}

/-- The loop from iteration `first` on, with the read that ends it. -/
def pltWalk (plt : Ptr) (format : Format) (first count : ℕ) : Walk :=
  (visits .plt plt format first count).append
    ⟨[], [⟨.plt, (first + count) * format.entrySize, 8⟩]⟩

theorem pltWalk_succ (first count : ℕ) :
    pltWalk plt format first (count + 1) =
      ⟨(visit .plt plt format first).1 :: (pltWalk plt format (first + 1) count).calls,
        (visit .plt plt format first).2 :: (pltWalk plt format (first + 1) count).reads⟩ := by
  rw [pltWalk, pltWalk, Nat.add_right_comm, Nat.add_assoc first count 1]
  rfl

theorem pltLoop_of_zero {first count fuel : ℕ}
    (visited : ∀ i < count, load memory (entryAt plt format (first + i)) ≠ 0)
    (zero : load memory (entryAt plt format (first + count)) = 0) (enough : count < fuel) :
    pltLoop memory plt format fuel first = some (pltWalk plt format first count) := by
  induction count generalizing first fuel with
  | zero =>
    obtain ⟨fuel, rfl⟩ := Nat.exists_eq_add_one.mpr enough
    rw [pltLoop]
    exact if_pos zero
  | succ count ih =>
    obtain ⟨fuel, rfl⟩ := Nat.exists_eq_add_one.mpr (Nat.zero_lt_of_lt enough)
    have later (i : ℕ) : first + (i + 1) = first + 1 + i := by omega
    have nonzero : ∀ i < count, load memory (entryAt plt format (first + 1 + i)) ≠ 0 := by
      intro i inside
      rw [← later]
      exact visited (i + 1) (by omega)
    rw [later] at zero
    have head : ¬ load memory (entryAt plt format first) = 0 := visited 0 (Nat.succ_pos _)
    rw [pltLoop, if_neg head, ih nonzero zero (by omega), Option.map_some, pltWalk_succ]

theorem zero_of_pltLoop {first fuel : ℕ} {walk : Walk}
    (ran : pltLoop memory plt format fuel first = some walk) :
    ∃ count, (∀ i < count, load memory (entryAt plt format (first + i)) ≠ 0) ∧
      load memory (entryAt plt format (first + count)) = 0 ∧
      walk = pltWalk plt format first count := by
  induction fuel generalizing first walk with
  | zero => cases ran
  | succ fuel ih =>
    rw [pltLoop] at ran
    split at ran
    · rename_i zero
      obtain rfl := Option.some.inj ran
      exact ⟨0, fun _ absurd => (Nat.not_lt_zero _ absurd).elim, zero, rfl⟩
    · rename_i nonzero
      obtain ⟨rest, later, rfl⟩ := Option.map_eq_some_iff.mp ran
      obtain ⟨count, visited, zero, rfl⟩ := ih later
      have shift (i : ℕ) : first + (i + 1) = first + 1 + i := by omega
      refine ⟨count + 1, fun i inside => ?_, ?_, (pltWalk_succ first count).symm⟩
      · cases i with
        | zero => exact nonzero
        | succ i =>
          rw [shift]
          exact visited i (by omega)
      · rw [shift]
        exact zero

end Detail.DynamicData

/-! ## Exactly the entries of the tables -/

open Detail Detail.DynamicData Machine.Core

variable {memory : Memory} {moduleBase : Ptr} {dynamic : List ElfDyn}

theorem visits_calls (table : Table) (extent : Extent) :
    (visits table extent.address extent.format 0 extent.count).calls = extent.calls := by
  rw [Extent.calls, List.range_eq_range']
  rfl

/-- What the loops never leave: entry `i` of a table ends within the table. -/
theorem inside_of_visits {table : Table} {bounds : Extent} {count : ℕ}
    (named : extent moduleBase dynamic table = some bounds) (bound : count ≤ bounds.count)
    {read : TableRead}
    (member : read ∈ (visits table bounds.address bounds.format 0 count).reads) :
    read.Inside moduleBase dynamic := by
  obtain ⟨i, inside, rfl⟩ := List.mem_map.mp member
  refine ⟨bounds, named, ?_⟩
  have below : i + 1 ≤ bounds.count := by
    have := (List.mem_range'_1.mp inside).2
    omega
  calc
    i * bounds.format.entrySize + bounds.format.entrySize
      = (i + 1) * bounds.format.entrySize := (Nat.succ_mul _ _).symm
    _ ≤ bounds.count * bounds.format.entrySize := Nat.mul_le_mul_right _ below
    _ ≤ bounds.size := Nat.div_mul_le_self _ _

theorem inside_of_visitsOf {table : Table} {read : TableRead}
    (member : read ∈ (visitsOf table (extent moduleBase dynamic table)).reads) :
    read.Inside moduleBase dynamic := by
  cases named : extent moduleBase dynamic table with
  | none =>
    rw [named] at member
    exact (List.not_mem_nil member).elim
  | some bounds =>
    rw [named] at member
    change read ∈ Walk.reads (if _ then _ else _) at member
    split at member
    · exact (List.not_mem_nil member).elim
    · exact inside_of_visits named le_rfl member

/-- No table at address zero has entries. -/
def Reached (bounds : Option Extent) : Prop :=
  ∀ table, bounds = some table → table.address = 0 → table.count = 0

theorem calls_of_reached {table : Table} {bounds : Option Extent} (reached : Reached bounds) :
    (visitsOf table bounds).calls = bounds.elim [] Extent.calls := by
  cases bounds with
  | none => rfl
  | some bounds =>
    change Walk.calls (if _ then _ else _) = bounds.calls
    split
    · rename_i zero
      rw [Extent.calls, reached bounds rfl zero]
      rfl
    · exact visits_calls table bounds

theorem length_visitsOf (table : Table) (bounds : Option Extent) :
    (visitsOf table bounds).calls.length ≤ (bounds.elim [] Extent.calls).length ∧
      ((visitsOf table bounds).calls.length = (bounds.elim [] Extent.calls).length →
        Reached bounds) := by
  cases bounds with
  | none => exact ⟨le_rfl, fun _ _ absurd => by cases absurd⟩
  | some bounds =>
    change (Walk.calls (if _ then _ else _)).length ≤ bounds.calls.length ∧
      ((Walk.calls (if _ then _ else _)).length = bounds.calls.length → _)
    split
    · refine ⟨Nat.zero_le _, fun same => ?_⟩
      rintro table named -
      obtain rfl := Option.some.inj named
      rw [Extent.calls, List.length_map, List.length_range] at same
      exact same.symm
    · rename_i nonzero
      refine ⟨Nat.le_of_eq (congrArg List.length (visits_calls table bounds)), fun _ => ?_⟩
      rintro table named zero
      obtain rfl := Option.some.inj named
      exact (nonzero zero).elim

theorem Format.entrySize_pos (format : Format) : 0 < format.entrySize := by
  cases format <;> decide

/-- A walk over the PLT table that reads nothing else visits no more than its entries, and all of
them only if the table ends itself. -/
theorem terminated_of_inside {fuel : ℕ} {walk : Walk}
    (ran : (extent moduleBase dynamic .plt).elim (some ⟨[], []⟩) (fun table =>
      if table.address = 0 then some ⟨[], []⟩
      else pltLoop memory table.address table.format fuel 0) = some walk)
    (inside : ∀ read ∈ walk.reads, read.Inside moduleBase dynamic) :
    walk.calls.length ≤ (callsOf moduleBase dynamic .plt).length ∧
      (walk.calls.length = (callsOf moduleBase dynamic .plt).length →
        Reached (extent moduleBase dynamic .plt) ∧
          ∀ table, extent moduleBase dynamic .plt = some table → table.address ≠ 0 →
            table.Terminated memory) := by
  rw [callsOf]
  cases named : extent moduleBase dynamic .plt with
  | none =>
    rw [named] at ran
    obtain rfl := Option.some.inj ran
    refine ⟨le_rfl, fun _ => ⟨?_, ?_⟩⟩
    · rintro table ⟨⟩
    · rintro table ⟨⟩
  | some bounds =>
    rw [named] at ran
    change (if bounds.address = 0 then _ else _) = some walk at ran
    change _ ≤ bounds.calls.length ∧ (_ = bounds.calls.length → _)
    rw [Extent.calls, List.length_map, List.length_range]
    split at ran
    · rename_i zero
      obtain rfl := Option.some.inj ran
      refine ⟨Nat.zero_le _, fun same => ⟨?_, ?_⟩⟩
      · rintro table same' -
        obtain rfl := Option.some.inj same'
        exact same.symm
      · rintro table same' nonzero
        obtain rfl := Option.some.inj same'
        exact (nonzero zero).elim
    · rename_i nonzero
      obtain ⟨count, visited, zero, rfl⟩ := zero_of_pltLoop ran
      -- the read that ends the loop
      obtain ⟨table, same, fits⟩ := inside ⟨.plt, (0 + count) * bounds.format.entrySize, 8⟩
        (List.mem_append_right _ List.mem_cons_self)
      obtain rfl := Option.some.inj (named.symm.trans same)
      simp only [Nat.zero_add] at visited zero fits
      have length : (pltWalk bounds.address bounds.format 0 count).calls.length = count := by
        rw [pltWalk, Walk.append, visits, List.append_nil, List.length_map, List.length_range']
      have few : count ≤ bounds.count := by
        apply (Nat.le_div_iff_mul_le bounds.format.entrySize_pos).mpr
        omega
      rw [length]
      refine ⟨few, fun all => ⟨?_, ?_⟩⟩
      · rintro table same' absurd
        obtain rfl := Option.some.inj same'
        exact (nonzero absurd).elim
      · rintro table same' -
        obtain rfl := Option.some.inj same'
        rw [all] at visited zero fits
        exact ⟨visited, zero, fits⟩

/-- The walk of the PLT table when it ends itself. -/
theorem forEachPlt_of_terminated {data : Detail.DynamicData}
    (parsed : parseDynamic moduleBase dynamic = some data)
    (delimited : Delimited memory moduleBase dynamic) :
    ∃ walk, Ends (data.forEachPlt memory) (some walk) ∧
      walk.calls = callsOf moduleBase dynamic .plt ∧
      ∀ read ∈ walk.reads, read.Inside moduleBase dynamic := by
  have same := @forEachPlt_eq moduleBase memory dynamic data parsed
  rw [callsOf]
  cases named : extent moduleBase dynamic .plt with
  | none =>
    rw [named] at same
    exact ⟨⟨[], []⟩, Ends.of_forall same, rfl, fun _ absurd => (List.not_mem_nil absurd).elim⟩
  | some bounds =>
    rw [named] at same
    change ∀ fuel, _ = if bounds.address = 0 then _ else _ at same
    by_cases zero : bounds.address = 0
    · simp only [if_pos zero] at same
      refine ⟨⟨[], []⟩, Ends.of_forall same, ?_, fun _ absurd => (List.not_mem_nil absurd).elim⟩
      change [] = bounds.calls
      rw [Extent.calls, delimited.1 bounds .plt named zero]
      rfl
    · simp only [if_neg zero] at same
      obtain ⟨visited, ends, fits⟩ := delimited.2 bounds named zero
      refine ⟨pltWalk bounds.address bounds.format 0 bounds.count, ?_, ?_, ?_⟩
      · apply Ends.congr same
        filter_upwards [Filter.eventually_gt_atTop bounds.count] with fuel enough
        apply pltLoop_of_zero _ _ enough
        · intro i below
          rw [Nat.zero_add]
          exact visited i below
        · rw [Nat.zero_add]
          exact ends
      · exact (List.append_nil _).trans (visits_calls .plt bounds)
      · intro read member
        rcases List.mem_append.mp member with visit | last
        · exact inside_of_visits named le_rfl visit
        · obtain rfl := List.mem_singleton.mp last
          refine ⟨bounds, named, ?_⟩
          simpa only [Nat.zero_add] using fits

/-- The walk is the entries of the tables, and reads nothing else, exactly when no table with
entries is at address zero and the PLT table contains the offset of zero that ends it. -/
theorem walked_iff_delimited {data : Detail.DynamicData}
    (parsed : parseDynamic moduleBase dynamic = some data) :
    Walked memory moduleBase dynamic data ↔ Delimited memory moduleBase dynamic := by
  constructor
  · rintro ⟨walk, ends, perm, inside⟩
    obtain ⟨fuel, ran⟩ := ends.exists
    obtain ⟨plt, first, rfl⟩ := Option.map_eq_some_iff.mp ran
    rw [forEachRel_eq parsed, forEachRela_eq parsed] at perm inside
    have reads (read : TableRead) (member : read ∈ plt.reads) : read.Inside moduleBase dynamic :=
      inside read (List.mem_append_left _ (List.mem_append_left _ member))
    rw [forEachPlt_eq parsed] at first
    obtain ⟨pltFew, pltAll⟩ := terminated_of_inside first reads
    obtain ⟨relFew, relAll⟩ := length_visitsOf .rel (extent moduleBase dynamic .rel)
    obtain ⟨relaFew, relaAll⟩ := length_visitsOf .rela (extent moduleBase dynamic .rela)
    -- no loop calls back too often, so none can call back too rarely
    have total := perm.length_eq
    simp only [Walk.append, List.length_append] at total
    change _ ≤ (callsOf moduleBase dynamic .rel).length at relFew
    change _ ≤ (callsOf moduleBase dynamic .rela).length at relaFew
    obtain ⟨reached, terminated⟩ := pltAll (by omega)
    refine ⟨fun table which => ?_, terminated⟩
    cases which with
    | plt => exact reached table
    | rel => exact relAll (by change _ = (callsOf moduleBase dynamic .rel).length; omega) table
    | rela => exact relaAll (by change _ = (callsOf moduleBase dynamic .rela).length; omega) table
  · intro delimited
    obtain ⟨plt, ends, calls, inside⟩ := forEachPlt_of_terminated parsed delimited
    refine ⟨(plt.append data.forEachRel).append data.forEachRela, ?_, ?_, ?_⟩
    · exact ends.mono fun fuel ran => congrArg (Option.map _) ran
    · rw [Walk.append, Walk.append, forEachRel_eq parsed, forEachRela_eq parsed, calls,
        calls_of_reached fun table => delimited.1 table .rel,
        calls_of_reached fun table => delimited.1 table .rela]
      exact List.Perm.refl _
    · intro read member
      rw [forEachRel_eq parsed, forEachRela_eq parsed] at member
      rcases List.mem_append.mp member with earlier | rela
      · rcases List.mem_append.mp earlier with first | rel
        · exact inside read first
        · exact inside_of_visitsOf rel
      · exact inside_of_visitsOf rela

/-! ## A table of one entry -/

/-- A section whose PLT table is at the start of the module. -/
def slotSection (size : U64) : List ElfDyn :=
  [⟨dtJmpRel, 0⟩, ⟨dtPltRelSz, size⟩, ⟨dtPltRel, dtRela⟩, ⟨dtNull, 0⟩]

def slotData (size : U64) : Detail.DynamicData := { plt := 0x1000, pltRelSize := size }

/-- The low bytes of two offsets, 24 bytes apart. -/
def slotMemory (behind : Byte) : Memory := fun address =>
  if address = 0x1000 then 0x10 else if address = 0x1018 then behind else 0

theorem walked_padded : Walked (slotMemory 0) 0x1000 (slotSection 32) (slotData 32) := by
  apply (walked_iff_delimited (show parseDynamic 0x1000 (slotSection 32) = some (slotData 32) from
    rfl)).mpr
  constructor
  · rintro table (_ | _ | _) ⟨⟩ zero
    exact absurd zero (by decide)
  · rintro table ⟨⟩ -
    decide

/-- With nothing but its one entry in the table, the word behind it is read. -/
theorem not_walked : parseDynamic 0x1000 (slotSection 24) = some (slotData 24) ∧
    ¬ Walked (slotMemory 0x20) 0x1000 (slotSection 24) (slotData 24) := by
  refine ⟨rfl, ?_⟩
  rintro ⟨walk, ends, -, inside⟩
  obtain ⟨fuel, ran⟩ := ends.exists
  obtain ⟨plt, first, rfl⟩ := Option.map_eq_some_iff.mp ran
  have loop : pltLoop (slotMemory 0x20) 0x1000 .rela fuel 0 = some plt := first
  obtain ⟨count, visited, zero, rfl⟩ := zero_of_pltLoop loop
  obtain ⟨table, same, fits⟩ := inside ⟨.plt, (0 + count) * 24, 8⟩
    (List.mem_append_left _ (List.mem_append_left _ (List.mem_append_right _ List.mem_cons_self)))
  obtain rfl : (⟨0x1000, .rela, 24⟩ : Extent) = table := Option.some.inj same
  change (0 + count) * 24 + 8 ≤ 24 at fits
  obtain rfl : count = 0 := by omega
  exact absurd zero (by decide)

end Hakkun.Ro
