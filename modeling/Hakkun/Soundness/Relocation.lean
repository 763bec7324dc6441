import Hakkun.Machine.Core.Updates
import Hakkun.Model.Rtld.Relocation
import Hakkun.Soundness.RelocationTables
import Hakkun.Soundness.SelfRelocation
import Mathlib.Data.List.Perm.Basic

/-! # What relocation leaves in the slots

Each entry of an absolute type updates the word of its slot, in one of the two passes; words that
are apart do not see each other. What an update makes of the word is `base + A` or `S + A`, except
that nothing is written for a weak symbol with default visibility that is not found. The width of an
entry does not matter to the store.
-/

namespace Hakkun.Rtld.Detail

open Ro Machine

/-! ## Words in memory -/

theorem load_congr {memory memory' : Memory} {address : Ptr}
    (same : ∀ i < 8, memory (address + BitVec.ofNat 64 i) = memory' (address + BitVec.ofNat 64 i)) :
    load memory address = load memory' address := by
  rw [← word_eq_iff]
  intro i bound
  rw [wordByte_load memory address bound, wordByte_load memory' address bound, same i bound]

/-- The addresses of the eight bytes of a word. -/
def wordCells (slot : Ptr) : Set Ptr := {a | ∃ i < 8, a = slot + BitVec.ofNat 64 i}

theorem mem_wordCells (slot : Ptr) {i : ℕ} (bound : i < 8) :
    slot + BitVec.ofNat 64 i ∈ wordCells slot := ⟨i, bound, rfl⟩

/-- A word is replaced by what is made of it. -/
def replaceWord (slot : Ptr) (value : U64 → U64) : Update Ptr Byte where
  cells := wordCells slot
  run memory := store memory slot (value (load memory slot))
  outside memory a outside := store_of_ne _ _ _ _ fun i bound same => outside ⟨i, bound, same⟩
  inside memory memory' same := by
    rintro _ ⟨i, bound, rfl⟩
    rw [store_at _ _ _ bound, store_at _ _ _ bound,
      load_congr fun j low => same _ (mem_wordCells slot low)]

theorem replaceWord_at (memory : Memory) (slot : Ptr) (value : U64 → U64) {i : ℕ} (bound : i < 8) :
    (replaceWord slot value).run memory (slot + BitVec.ofNat 64 i) =
      wordByte (value (load memory slot)) i := store_at _ _ _ bound

theorem store_load (memory : Memory) (address : Ptr) :
    store memory address (load memory address) = memory := by
  funext a
  by_cases inside : a ∈ wordCells address
  · obtain ⟨i, bound, rfl⟩ := inside
    rw [store_at _ _ _ bound, wordByte_load _ _ bound]
  · exact store_of_ne _ _ _ _ fun i bound same => inside ⟨i, bound, same⟩

/-! ## What the tables ask for -/

/-- The table that an array of entries is. -/
def table (rodata : Memory) (format : Format) (entries : Ptr) (count : ℕ) : List Ro.Entry :=
  (List.range count).map (readEntry rodata format entries)

/-- The entries of a table of a dynamic section, none where there is no table. -/
def tableOf (rodata : Memory) (extent : Option Extent) : List Ro.Entry :=
  extent.elim [] fun extent => table rodata extent.format extent.address extent.count

/-- The bytes in the slot of an entry. -/
def width (entry : Ro.Entry) : ℕ := if elfRType entry.r_info = archAbs32 then 4 else 8

/-- The addend of an entry: explicit, or the word that is in its slot. -/
def addend (word : U64) : Ro.Entry → U64
  | .rel _ => word
  | .rela entry => entry.r_addend

namespace Loaded

variable (lookups : Lookups) (rodata : Memory) (module : Loaded)

/-- The `DT_REL` and `DT_RELA` tables. -/
def dynTables : List Ro.Entry :=
  tableOf rodata (extent module.moduleBase module.dynamic .rel) ++
    tableOf rodata (extent module.moduleBase module.dynamic .rela)

/-- The `DT_JMPREL` table. -/
def pltTable : List Ro.Entry := tableOf rodata (extent module.moduleBase module.dynamic .plt)

def entries : List Ro.Entry := module.dynTables rodata ++ module.pltTable rodata

def slot (entry : Ro.Entry) : Ptr := module.moduleBase + entry.r_offset

def symbol (entry : Ro.Entry) : ElfSym := module.dynsym (elfRSym entry.r_info)

def Weak (entry : Ro.Entry) : Prop := elfStBind (module.symbol entry).st_info = stbWeak

def Default (entry : Ro.Entry) : Prop :=
  elfStVisibility (module.symbol entry).st_other = stvDefault

instance (entry : Ro.Entry) : Decidable (module.Weak entry) := inferInstanceAs (Decidable (_ = _))

instance (entry : Ro.Entry) : Decidable (module.Default entry) :=
  inferInstanceAs (Decidable (_ = _))

/-- The address of the symbol that is found: in all modules and by the manual lookup, or in the
module itself if others do not see it. -/
def found (entry : Ro.Entry) : Option Ptr :=
  let name := module.dynstr (module.symbol entry).st_name
  if module.Default entry then
    if lookups.lookupGlobalAuto name ≠ 0 then some (lookups.lookupGlobalAuto name)
    else (lookups.lookupGlobalManual.map (· name)).filter (· ≠ 0)
  else (module.getSymbolByName name).map (module.moduleBase + ·)

/-- `S`: a weak symbol that is not found counts as 0. -/
def symbolAddress (entry : Ro.Entry) : Option Ptr :=
  (module.found lookups entry).or (if module.Weak entry then some 0 else none)

/-- A table that is not there has no entries. -/
structure Absent : Prop where
  rel : module.data.rel = 0 → module.data.relCount = 0
  rela : module.data.rela = 0 → module.data.relaCount = 0
  plt : module.data.plt = 0 → module.data.pltRelSize = 0

/-- What the slot of an entry is to hold, given what it holds before; a symbol that is not found
and not weak leaves that open. -/
def wanted (word : U64) (entry : Ro.Entry) : Option U64 :=
  if elfRType entry.r_info = archRelative then some (module.moduleBase + addend word entry)
  else (module.symbolAddress lookups entry).map (· + addend word entry)

end Loaded

/-- Every slot holds what its entry asks for, `GOT[2]` is cleared, and no other byte has changed. -/
structure Relocated (lookups : Lookups) (rodata : Memory) (modules : List Loaded)
    (before after : Memory) : Prop where
  slots : ∀ module ∈ modules, ∀ entry ∈ module.entries rodata,
    isAbsolute (elfRType entry.r_info) = true →
      ∀ value, module.wanted lookups (load before (module.slot entry)) entry = some value →
        ∀ i < width entry, after (module.slot entry + BitVec.ofNat 64 i) = wordByte value i
  got : ∀ module ∈ modules, module.pltGot ≠ 0 →
    ∀ i < 8, after (module.pltGot + 16 + BitVec.ofNat 64 i) = 0
  others : ∀ a, (∀ module ∈ modules, ∀ entry ∈ module.entries rodata,
      isAbsolute (elfRType entry.r_info) = true →
        ∀ i < width entry, a ≠ module.slot entry + BitVec.ofNat 64 i) →
    (∀ module ∈ modules, module.pltGot ≠ 0 → ∀ i < 8, a ≠ module.pltGot + 16 + BitVec.ofNat 64 i) →
    after a = before a

/-! ## When it is done -/

/-- The words that are written: those of the slots and, for `none`, `GOT[2]`. -/
def places (rodata : Memory) (modules : List Loaded) : List (Loaded × Option Ro.Entry) :=
  modules.flatMap fun module =>
    (((module.entries rodata).filter fun entry => isAbsolute (elfRType entry.r_info)).map some ++
      if module.pltGot ≠ 0 then [none] else []).map fun place => (module, place)

def word (place : Loaded × Option Ro.Entry) : Ptr :=
  match place.2 with
  | some entry => place.1.slot entry
  | none => place.1.pltGot + 16

/-- What a linker and the lookups promise. A table that is not there has no entries, an entry with
a relative type is in the first two tables and names no symbol, and each place has a word of its
own. -/
structure WellFormed (lookups : Lookups) (rodata : Memory) (modules : List Loaded) : Prop where
  absent : ∀ module ∈ modules, module.Absent
  plt : ∀ module ∈ modules, ∀ entry ∈ module.pltTable rodata,
    elfRType entry.r_info ≠ archRelative
  relative : ∀ module ∈ modules, ∀ entry ∈ module.dynTables rodata,
    elfRType entry.r_info = archRelative → module.symbolAddress lookups entry = none
  apart : (places rodata modules).Pairwise fun first second =>
    ∀ i < 8, ∀ j < 8, word first + BitVec.ofNat 64 i ≠ word second + BitVec.ofNat 64 j

/-- A module does not have both tables: they share a pointer. -/
def OneTable (module : Loaded) : Prop := module.data.rela = 0 ∨ module.data.relCount = 0

/-- What is written for an entry is right. If its symbol is found, or weak and not visible to other
modules, the bytes of the store behind a slot of four bytes are there already; otherwise the slot of
a weak symbol holds the addend already. -/
def Exact (lookups : Lookups) (module : Loaded) (word : U64) (entry : Ro.Entry) : Prop :=
  match module.found lookups entry with
  | some S => width entry = 4 → (S + addend word entry) >>> 32 = word >>> 32
  | none => module.Weak entry →
    if module.Default entry then
      ∀ i < width entry, wordByte word i = wordByte (addend word entry) i
    else width entry = 4 → addend word entry >>> 32 = word >>> 32

/-! ## The run as updates -/

namespace Loaded

variable (lookups : Lookups) (rodata : Memory) (module : Loaded)

/-- What `ResolveSymbol` returns for the symbol of an entry: a weak symbol that is not found has an
address only if it is not visible to other modules. -/
def resolved (entry : Ro.Entry) : Option Ptr :=
  (module.found lookups entry).or
    (if module.Weak entry ∧ ¬ module.Default entry then some 0 else none)

/-- What is in the slot of an entry at the end. -/
def finalValue (entry : Ro.Entry) (word : U64) : U64 :=
  if elfRType entry.r_info = archRelative then module.moduleBase + addend word entry
  else ((module.resolved lookups entry).map (· + addend word entry)).getD word

/-- What is done at a place. -/
def placeUpdate (place : Loaded × Option Ro.Entry) : Update Ptr Byte :=
  replaceWord (word place) fun old =>
    match place.2 with
    | some entry => place.1.finalValue lookups entry old
    | none => 0

/-- The places of the two passes of a module. -/
def relocating : List (Loaded × Option Ro.Entry) :=
  ((module.entries rodata).filter fun entry => elfRType entry.r_info = archRelative).map
    fun entry => (module, some entry)

def resolving : List (Loaded × Option Ro.Entry) :=
  ((module.entries rodata).filter fun entry =>
      isAbsolute (elfRType entry.r_info) && !decide (elfRType entry.r_info = archRelative)).map
    (fun entry => (module, some entry)) ++ if module.pltGot ≠ 0 then [(module, none)] else []

variable {lookups rodata module}

theorem resolveSymbol_symbol (entry : Ro.Entry) :
    (RoModule.initializeFrom module).resolveSymbol lookups (module.symbol entry) =
      module.resolved lookups entry := by
  unfold RoModule.resolveSymbol resolved found
  by_cases visible : module.Default entry
  · have local_ : ¬ (module.Weak entry ∧ ¬ module.Default entry) := fun both => both.2 visible
    rw [if_neg (show ¬ _ ≠ stvDefault from not_not_intro visible), if_pos visible,
      if_neg local_, Option.or_none]
    by_cases auto : lookups.lookupGlobalAuto (module.dynstr (module.symbol entry).st_name) = 0#64
    · cases lookups.lookupGlobalManual with
      | none => simp [RoModule.initializeFrom, auto]
      | some manual =>
        by_cases missing : manual (module.dynstr (module.symbol entry).st_name) = 0#64 <;>
          simp [RoModule.initializeFrom, auto, missing, Option.filter]
    · cases lookups.lookupGlobalManual <;> simp [RoModule.initializeFrom, auto]
  · rw [if_pos (show _ ≠ stvDefault from visible), if_neg visible]
    cases local_ : module.getSymbolByName (module.dynstr (module.symbol entry).st_name) with
    | none =>
      by_cases weak : module.Weak entry
      · have bind : elfStBind (module.symbol entry).st_info = stbWeak := weak
        simp [RoModule.initializeFrom, local_, weak, visible, bind]
      · have bind : elfStBind (module.symbol entry).st_info ≠ stbWeak := weak
        simp [RoModule.initializeFrom, local_, weak, bind]
    | some st_value => simp [RoModule.initializeFrom, local_]

/-- A table of the section is the array at the parsed address. -/
theorem tableOf_extentOf {tag sizeTag : U64} {format : Format} {entries : Ptr} {count : ℕ}
    (address : entries = (extentOf module.moduleBase module.dynamic tag sizeTag format).elim 0
      (·.address))
    (counted : count = sizeOf sizeTag module.dynamic / format.entrySize)
    (absent : entries = 0 → count = 0) :
    tableOf rodata (extentOf module.moduleBase module.dynamic tag sizeTag format) =
      table rodata format entries count := by
  rw [extentOf] at address ⊢
  cases value : valueOf tag (Ro.Detail.beforeNull module.dynamic) with
  | none =>
    rw [value] at address
    rw [absent address]
    rfl
  | some offset =>
    rw [value] at address
    rw [counted, address]
    rfl

theorem tableOf_rel (absent : module.Absent) :
    tableOf rodata (extent module.moduleBase module.dynamic .rel) =
      table rodata .rel module.data.rel module.data.relCount.toNat :=
  tableOf_extentOf (Ro.Detail.DynamicData.rel_address module.parsed)
    (Ro.Detail.DynamicData.rel_counted module.parsed) fun null => by rw [absent.rel null]; rfl

theorem tableOf_rela (absent : module.Absent) :
    tableOf rodata (extent module.moduleBase module.dynamic .rela) =
      table rodata .rela module.data.rela module.data.relaCount.toNat :=
  tableOf_extentOf (Ro.Detail.DynamicData.rela_address module.parsed)
    (Ro.Detail.DynamicData.rela_counted module.parsed) fun null => by rw [absent.rela null]; rfl

theorem pltTable_eq (absent : module.Absent) :
    module.pltTable rodata = table rodata module.data.pltFormat module.data.plt
      (module.data.pltRelSize.toNat / module.data.pltFormat.entrySize) := by
  rw [pltTable, extent, ← Ro.Detail.DynamicData.plt_format module.parsed]
  refine tableOf_extentOf ((Ro.Detail.DynamicData.plt_address module.parsed).trans ?_) ?_
    fun null => ?_
  · rw [extent, ← Ro.Detail.DynamicData.plt_format module.parsed]
  · rw [Ro.Detail.DynamicData.plt_sized module.parsed]
  · rw [absent.plt null]
    exact Nat.zero_div _

/-- The first loop of each pass and the second go through the tables of their formats, since the
pointer that they share is that of the table with entries. -/
theorem forEachRelocation_dyn (one : OneTable module) (absent : module.Absent)
    (func : Memory → Ro.Entry → Memory) (memory : Memory) :
    RoModule.forEachRelocation rodata .rela (RoModule.initializeFrom module).m_pDyn
        module.data.relaCount.toNat func
        (RoModule.forEachRelocation rodata .rel (RoModule.initializeFrom module).m_pDyn
          module.data.relCount.toNat func memory) =
      (module.dynTables rodata).foldl func memory := by
  rw [dynTables, tableOf_rel absent, tableOf_rela absent, List.foldl_append, table, table,
    List.foldl_map, List.foldl_map]
  rcases eq_or_ne module.data.rela 0 with null | present
  · have pointer : (RoModule.initializeFrom module).m_pDyn = module.data.rel :=
      if_neg (not_not_intro null)
    rw [pointer, absent.rela null]
    rfl
  · have pointer : (RoModule.initializeFrom module).m_pDyn = module.data.rela := if_pos present
    rw [pointer, one.resolve_left present]
    rfl

theorem finalValue_of_relative {entry : Ro.Entry} (relative : elfRType entry.r_info = archRelative)
    (old : U64) : module.finalValue lookups entry old = module.moduleBase + addend old entry :=
  if_pos relative

theorem finalValue_of_ne {entry : Ro.Entry} (other : elfRType entry.r_info ≠ archRelative)
    (old : U64) : module.finalValue lookups entry old =
      ((module.resolved lookups entry).map (· + addend old entry)).getD old := if_neg other

/-- What is done at the place of an entry. -/
theorem placeUpdate_run (entry : Ro.Entry) (memory : Memory) :
    (placeUpdate lookups (module, some entry)).run memory =
      store memory (module.slot entry)
        (module.finalValue lookups entry (load memory (module.slot entry))) := rfl

/-- A relative entry is applied by the first pass. -/
theorem relocateEntry_eq (entry : Ro.Entry) (memory : Memory) :
    (RoModule.initializeFrom module).relocateEntry memory entry =
      if elfRType entry.r_info = archRelative then
        (placeUpdate lookups (module, some entry)).run memory else memory := by
  by_cases relative : elfRType entry.r_info = archRelative
  · rw [if_pos relative, placeUpdate_run, finalValue_of_relative relative]
    cases entry with
    | rel entry =>
      rw [BitVec.add_comm module.moduleBase]
      exact if_pos relative
    | rela entry => exact if_pos relative
  · rw [if_neg relative]
    cases entry <;> exact if_neg relative

/-- Any other entry of an absolute type is applied by the second pass. -/
theorem resolveEntry_eq (entry : Ro.Entry)
    (relative : elfRType entry.r_info = archRelative → module.symbolAddress lookups entry = none)
    (memory : Memory) :
    (RoModule.initializeFrom module).resolveEntry lookups memory entry =
      if isAbsolute (elfRType entry.r_info) && !decide (elfRType entry.r_info = archRelative) then
        (placeUpdate lookups (module, some entry)).run memory else memory := by
  have symbol : (RoModule.initializeFrom module).resolveSymbol lookups
      ((RoModule.initializeFrom module).m_pDynSym (elfRSym entry.r_info)) =
        module.resolved lookups entry := resolveSymbol_symbol entry
  unfold RoModule.resolveEntry
  rw [symbol]
  cases absolute : isAbsolute (elfRType entry.r_info) with
  | false => simp
  | true =>
    by_cases type : elfRType entry.r_info = archRelative
    · have nothing := relative type
      rw [symbolAddress, Option.or_eq_none_iff] at nothing
      obtain ⟨missing, weak⟩ := nothing
      have unresolved : module.resolved lookups entry = none := by
        rw [resolved, missing, Option.none_or, if_neg]
        rintro ⟨isWeak, -⟩
        rw [if_pos isWeak] at weak
        cases weak
      simp [unresolved, type]
    · rw [if_pos rfl, if_pos (by simp [type])]
      rw [placeUpdate_run, finalValue_of_ne type]
      cases address : module.resolved lookups entry with
      | none => rw [Option.map_none, Option.getD_none, store_load]
      | some S =>
        rw [Option.map_some, Option.getD_some]
        cases entry with
        | rel entry =>
          rw [BitVec.add_comm S]
          rfl
        | rela entry => rfl

/-- What the entries of a list do in a loop is done at their places. -/
theorem foldl_entries (given : List Ro.Entry) (chosen : Ro.Entry → Bool)
    (body : Memory → Ro.Entry → Memory)
    (step : ∀ entry ∈ given, ∀ memory, body memory entry = if chosen entry then
      (placeUpdate lookups (module, some entry)).run memory else memory) (memory : Memory) :
    given.foldl body memory = Update.runAll
      (((given.filter chosen).map fun entry => (module, some entry)).map (placeUpdate lookups))
      memory := by
  rw [Update.foldl_eq_runAll given chosen (fun entry => placeUpdate lookups (module, some entry))
    body step, List.map_map]
  rfl

/-- The PLT table has nothing for the first pass. -/
theorem relocating_eq (plt : ∀ entry ∈ module.pltTable rodata,
      elfRType entry.r_info ≠ archRelative) :
    module.relocating rodata = ((module.dynTables rodata).filter fun entry =>
      elfRType entry.r_info = archRelative).map fun entry => (module, some entry) := by
  have nothing : ((module.pltTable rodata).filter fun entry =>
      elfRType entry.r_info = archRelative) = [] :=
    List.filter_eq_nil_iff.mpr fun entry member => by simpa using plt entry member
  rw [relocating, entries, List.filter_append, nothing, List.append_nil]

theorem relocate_eq (one : OneTable module) (absent : module.Absent)
    (plt : ∀ entry ∈ module.pltTable rodata, elfRType entry.r_info ≠ archRelative)
    (memory : Memory) :
    (RoModule.initializeFrom module).relocate rodata memory =
      Update.runAll ((module.relocating rodata).map (placeUpdate lookups)) memory := by
  rw [relocating_eq plt, RoModule.relocate]
  refine (forEachRelocation_dyn one absent _ memory).trans (foldl_entries _ _ _ ?_ memory)
  intro entry _ memory
  simpa using relocateEntry_eq entry memory

theorem resolveSymbols_eq (one : OneTable module) (absent : module.Absent)
    (relative : ∀ entry ∈ module.entries rodata, elfRType entry.r_info = archRelative →
      module.symbolAddress lookups entry = none) (memory : Memory) :
    (RoModule.initializeFrom module).resolveSymbols lookups rodata memory =
      Update.runAll ((module.resolving rodata).map (placeUpdate lookups)) memory := by
  have tables : RoModule.forEachRelocation rodata module.data.pltFormat module.data.plt
      (module.data.pltRelSize.toNat / module.data.pltFormat.entrySize)
      ((RoModule.initializeFrom module).resolveEntry lookups)
      ((module.dynTables rodata).foldl
        ((RoModule.initializeFrom module).resolveEntry lookups) memory) =
      (module.entries rodata).foldl ((RoModule.initializeFrom module).resolveEntry lookups)
        memory := by
    rw [entries, List.foldl_append, pltTable_eq absent, table, List.foldl_map]
    rfl
  have run := foldl_entries (module.entries rodata)
    (fun entry => isAbsolute (elfRType entry.r_info) &&
      !decide (elfRType entry.r_info = archRelative))
    ((RoModule.initializeFrom module).resolveEntry lookups)
    (fun entry member => resolveEntry_eq entry (relative entry member)) memory
  rw [resolving, List.map_append, Update.runAll_append, ← run, ← tables,
    ← forEachRelocation_dyn one absent]
  by_cases got : module.pltGot = 0
  · rw [if_neg (not_not_intro got)]
    exact if_neg (not_not_intro got)
  · rw [if_pos got]
    exact if_pos got

end Loaded

/-! ## The whole run -/

section

variable {lookups : Lookups} {rodata : Memory} {modules : List Loaded}

/-- The places in the order in which they are written: one pass over the modules, and one from the
last module to the first. -/
def order (rodata : Memory) (modules : List Loaded) : List (Loaded × Option Ro.Entry) :=
  modules.flatMap (Loaded.relocating rodata) ++ modules.reverse.flatMap (Loaded.resolving rodata)

/-- A relative entry of any table names no symbol. -/
theorem WellFormed.relative_entries (wellFormed : WellFormed lookups rodata modules)
    {module : Loaded} (member : module ∈ modules) {entry : Ro.Entry}
    (listed : entry ∈ module.entries rodata) (type : elfRType entry.r_info = archRelative) :
    module.symbolAddress lookups entry = none := by
  rcases List.mem_append.mp listed with dyn | plt
  · exact wellFormed.relative module member entry dyn type
  · exact (wellFormed.plt module member entry plt type).elim

theorem initializeRtld_eq (wellFormed : WellFormed lookups rodata modules)
    (one : ∀ module ∈ modules, OneTable module) (memory : Memory) :
    initializeRtld lookups rodata modules memory =
      Update.runAll ((order rodata modules).map (Loaded.placeUpdate lookups)) memory := by
  rw [order, List.map_append, List.map_flatMap, List.map_flatMap, Update.runAll_append,
    Update.runAll_flatMap, Update.runAll_flatMap]
  simp only [initializeRtld, ← List.map_reverse, List.foldl_map]
  have first : modules.foldl (fun memory module =>
      (RoModule.initializeFrom module).relocate rodata memory) memory =
      modules.foldl (fun memory module => Update.runAll
        ((module.relocating rodata).map (Loaded.placeUpdate lookups)) memory) memory :=
    List.foldl_ext _ _ _ fun memory module member => Loaded.relocate_eq (one module member)
      (wellFormed.absent module member) (wellFormed.plt module member) memory
  rw [first]
  apply List.foldl_ext
  intro memory module member
  rw [List.mem_reverse] at member
  exact Loaded.resolveSymbols_eq (one module member) (wellFormed.absent module member)
    (fun entry listed type => wellFormed.relative_entries member listed type) memory

/-- Each place is written once. -/
theorem order_perm (rodata : Memory) (modules : List Loaded) :
    (order rodata modules).Perm (places rodata modules) := by
  have reversed : (modules.reverse.flatMap (Loaded.resolving rodata)).Perm
      (modules.flatMap (Loaded.resolving rodata)) := (modules.reverse_perm).flatMap_right _
  refine (reversed.append_left _).trans ((List.flatMap_append_perm modules _ _).trans ?_)
  refine List.Perm.flatMap_left modules fun module _ => ?_
  have relative : (((module.entries rodata).filter fun entry =>
      isAbsolute (elfRType entry.r_info)).filter fun entry =>
        elfRType entry.r_info = archRelative) =
      (module.entries rodata).filter fun entry => elfRType entry.r_info = archRelative := by
    rw [List.filter_filter]
    apply List.filter_congr
    intro entry _
    by_cases type : elfRType entry.r_info = archRelative
    · rw [type]
      rfl
    · simp [type]
  have other : (((module.entries rodata).filter fun entry =>
      isAbsolute (elfRType entry.r_info)).filter fun entry =>
        !decide (elfRType entry.r_info = archRelative)) =
      (module.entries rodata).filter fun entry => isAbsolute (elfRType entry.r_info) &&
        !decide (elfRType entry.r_info = archRelative) := by
    rw [List.filter_filter]
    exact List.filter_congr fun entry _ => Bool.and_comm _ _
  have got : (if module.pltGot ≠ 0 then [(module, (none : Option Ro.Entry))] else []) =
      (if module.pltGot ≠ 0 then [none] else []).map fun place => (module, place) := by
    split <;> rfl
  rw [Loaded.relocating, Loaded.resolving, ← relative, ← other, got, ← List.append_assoc,
    List.map_append, List.map_map, ← List.map_append]
  exact ((List.filter_append_perm _ _).map _).append_right _

theorem WellFormed.apart_updates (wellFormed : WellFormed lookups rodata modules) :
    ((order rodata modules).map (Loaded.placeUpdate lookups)).Pairwise Update.Apart := by
  refine ((order_perm rodata modules).map _).symm.pairwise ?_ Update.Apart.symm
  rw [List.pairwise_map]
  apply wellFormed.apart.imp
  rintro first second apart _ ⟨i, here, rfl⟩ ⟨j, there, same⟩
  exact apart i here j there same

/-- The bytes of the word of a place at the end. -/
theorem initializeRtld_at (wellFormed : WellFormed lookups rodata modules)
    (one : ∀ module ∈ modules, OneTable module) (memory : Memory)
    {place : Loaded × Option Ro.Entry} (member : place ∈ places rodata modules) {i : ℕ}
    (bound : i < 8) :
    initializeRtld lookups rodata modules memory (word place + BitVec.ofNat 64 i) =
      (Loaded.placeUpdate lookups place).run memory (word place + BitVec.ofNat 64 i) := by
  rw [initializeRtld_eq wellFormed one]
  refine Update.runAll_of_mem wellFormed.apart_updates (List.mem_map_of_mem ?_)
    (mem_wordCells _ bound)
  exact (order_perm rodata modules).mem_iff.mpr member

/-- All other bytes are kept. -/
theorem initializeRtld_outside (wellFormed : WellFormed lookups rodata modules)
    (one : ∀ module ∈ modules, OneTable module) (memory : Memory) {a : Ptr}
    (outside : ∀ place ∈ places rodata modules, a ∉ wordCells (word place)) :
    initializeRtld lookups rodata modules memory a = memory a := by
  rw [initializeRtld_eq wellFormed one]
  apply Update.runAll_of_outside
  intro update member
  obtain ⟨place, written, rfl⟩ := List.mem_map.mp member
  exact outside place ((order_perm rodata modules).mem_iff.mp written)

theorem mem_places_entry {module : Loaded} {entry : Ro.Entry} :
    (module, some entry) ∈ places rodata modules ↔
      module ∈ modules ∧ entry ∈ module.entries rodata ∧
        isAbsolute (elfRType entry.r_info) = true := by
  constructor
  · intro member
    obtain ⟨other, listed, member⟩ := List.mem_flatMap.mp member
    obtain ⟨place, member, same⟩ := List.mem_map.mp member
    obtain ⟨rfl, rfl⟩ := Prod.mk.inj same
    rcases List.mem_append.mp member with member | member
    · obtain ⟨filtered, kept, same⟩ := List.mem_map.mp member
      obtain rfl := Option.some.inj same
      obtain ⟨inTable, absolute⟩ := List.mem_filter.mp kept
      exact ⟨listed, inTable, absolute⟩
    · split_ifs at member
      · simp at member
      · cases member
  · rintro ⟨listed, member⟩
    refine List.mem_flatMap.mpr ⟨module, listed, List.mem_map_of_mem ?_⟩
    exact List.mem_append_left _ (List.mem_map_of_mem (List.mem_filter.mpr member))

theorem mem_places_got {module : Loaded} :
    (module, none) ∈ places rodata modules ↔ module ∈ modules ∧ module.pltGot ≠ 0 := by
  constructor
  · intro member
    obtain ⟨other, listed, member⟩ := List.mem_flatMap.mp member
    obtain ⟨place, member, same⟩ := List.mem_map.mp member
    obtain ⟨rfl, rfl⟩ := Prod.mk.inj same
    rcases List.mem_append.mp member with member | member
    · simp at member
    · split_ifs at member with present
      · exact ⟨listed, present⟩
      · cases member
  · rintro ⟨listed, present⟩
    refine List.mem_flatMap.mpr ⟨module, listed, List.mem_map_of_mem ?_⟩
    rw [if_pos present]
    exact List.mem_append_right _ (List.mem_singleton_self _)

/-- A byte is in the word of one place, at one index. -/
theorem WellFormed.same_place (wellFormed : WellFormed lookups rodata modules)
    {first second : Loaded × Option Ro.Entry} (here : first ∈ places rodata modules)
    (there : second ∈ places rodata modules) {i j : ℕ} (low : i < 8) (low' : j < 8)
    (same : word first + BitVec.ofNat 64 i = word second + BitVec.ofNat 64 j) :
    first = second ∧ i = j := by
  have symm : Std.Symm fun first second : Loaded × Option Ro.Entry =>
      ∀ i < 8, ∀ j < 8, word first + BitVec.ofNat 64 i ≠ word second + BitVec.ofNat 64 j :=
    ⟨fun _ _ apart i low j low' same => apart j low' i low same.symm⟩
  rcases eq_or_ne first second with rfl | ne
  · have offsets := congrArg BitVec.toNat (add_left_cancel same)
    rw [BitVec.toNat_ofNat, BitVec.toNat_ofNat] at offsets
    exact ⟨rfl, by omega⟩
  · exact (wellFormed.apart.forall here there ne i low j low' same).elim

theorem width_le (entry : Ro.Entry) : width entry ≤ 8 := by
  unfold width
  split <;> omega

theorem width_of_relative {entry : Ro.Entry} (relative : elfRType entry.r_info = archRelative) :
    width entry = 8 := by
  unfold width
  rw [relative]
  rfl

/-- The bytes of a stored word behind the slot are there already. -/
theorem behind_iff (entry : Ro.Entry) (value old : U64) :
    (∀ i, width entry ≤ i → i < 8 → wordByte value i = wordByte old i) ↔
      (width entry = 4 → value >>> 32 = old >>> 32) := by
  unfold width
  split
  · rw [highWord_eq_iff]
    exact ⟨fun same _ => same, fun same => same rfl⟩
  · constructor
    · intro _ four
      cases four
    · intro _ i lower upper
      omega

/-- What an exact entry is: the slot gets what is wanted, and the bytes behind it are kept. -/
theorem exact_iff {module : Loaded} {entry : Ro.Entry} (old : U64)
    (other : elfRType entry.r_info ≠ archRelative) :
    Exact lookups module old entry ↔
      (∀ value, module.wanted lookups old entry = some value → ∀ i < width entry,
        wordByte (module.finalValue lookups entry old) i = wordByte value i) ∧
      ∀ i, width entry ≤ i → i < 8 →
        wordByte (module.finalValue lookups entry old) i = wordByte old i := by
  rw [behind_iff, Loaded.finalValue_of_ne other, Loaded.wanted, if_neg other, Loaded.resolved,
    Loaded.symbolAddress, Exact]
  cases module.found lookups entry with
  | some S => simp
  | none =>
    by_cases weak : module.Weak entry
    · by_cases visible : module.Default entry <;> simp [weak, visible]
    · simp [weak]

theorem wanted_of_relative {module : Loaded} {entry : Ro.Entry}
    (relative : elfRType entry.r_info = archRelative) (old : U64) :
    module.wanted lookups old entry = some (module.finalValue lookups entry old) := by
  rw [Loaded.wanted, if_pos relative, Loaded.finalValue_of_relative relative]

/-- The bytes of a slot at the end. -/
theorem initializeRtld_slot (wellFormed : WellFormed lookups rodata modules)
    (one : ∀ module ∈ modules, OneTable module) (memory : Memory) {module : Loaded}
    {entry : Ro.Entry} (member : (module, some entry) ∈ places rodata modules) {i : ℕ}
    (bound : i < 8) :
    initializeRtld lookups rodata modules memory (module.slot entry + BitVec.ofNat 64 i) =
      wordByte (module.finalValue lookups entry (load memory (module.slot entry))) i :=
  (initializeRtld_at wellFormed one memory member bound).trans (replaceWord_at _ _ _ bound)

/-- Every entry with a symbol is exact. -/
def AllExact (lookups : Lookups) (rodata : Memory) (modules : List Loaded) (before : Memory) :
    Prop :=
  ∀ module ∈ modules, ∀ entry ∈ module.entries rodata, isAbsolute (elfRType entry.r_info) = true →
    elfRType entry.r_info ≠ archRelative →
      Exact lookups module (load before (module.slot entry)) entry

theorem allExact_of_relocated (wellFormed : WellFormed lookups rodata modules)
    (one : ∀ module ∈ modules, OneTable module) {before : Memory}
    (relocated : Relocated lookups rodata modules before
      (initializeRtld lookups rodata modules before)) : AllExact lookups rodata modules before := by
  intro module member entry listed absolute other
  have here : (module, some entry) ∈ places rodata modules :=
    mem_places_entry.mpr ⟨member, listed, absolute⟩
  refine (exact_iff _ other).mpr ⟨fun value wanted i inside => ?_, fun i behind bound => ?_⟩
  · rw [← initializeRtld_slot wellFormed one before here (inside.trans_le (width_le entry))]
    exact relocated.slots module member entry listed absolute value wanted i inside
  · rw [← initializeRtld_slot wellFormed one before here bound, wordByte_load _ _ bound]
    -- a byte behind the slot is in no other place, so it has not changed
    apply relocated.others
    · intro module' member' entry' listed' absolute' j inside same
      have there : (module', some entry') ∈ places rodata modules :=
        mem_places_entry.mpr ⟨member', listed', absolute'⟩
      obtain ⟨sameEntry, rfl⟩ := wellFormed.same_place here there bound
        (inside.trans_le (width_le entry')) same
      obtain ⟨-, rfl⟩ : module = module' ∧ entry = entry' := by simpa using sameEntry
      exact absurd inside (not_lt.mpr behind)
    · intro module' member' present j low same
      have there : (module', none) ∈ places rodata modules :=
        mem_places_got.mpr ⟨member', present⟩
      have samePlace := (wellFormed.same_place here there bound low same).1
      simp at samePlace

theorem relocated_of_allExact (wellFormed : WellFormed lookups rodata modules)
    (one : ∀ module ∈ modules, OneTable module) {before : Memory}
    (exact : AllExact lookups rodata modules before) :
    Relocated lookups rodata modules before (initializeRtld lookups rodata modules before) := by
  refine ⟨?_, ?_, ?_⟩
  · intro module member entry listed absolute value wanted i inside
    rw [initializeRtld_slot wellFormed one before
      (mem_places_entry.mpr ⟨member, listed, absolute⟩) (inside.trans_le (width_le entry))]
    by_cases relative : elfRType entry.r_info = archRelative
    · rw [wanted_of_relative relative] at wanted
      rw [Option.some.inj wanted]
    · obtain ⟨written, -⟩ :=
        (exact_iff _ relative).mp (exact module member entry listed absolute relative)
      exact written value wanted i inside
  · intro module member present i bound
    refine (initializeRtld_at wellFormed one before (mem_places_got.mpr ⟨member, present⟩)
      bound).trans ((replaceWord_at _ _ _ bound).trans ?_)
    simp [wordByte]
  · intro a slots gots
    by_cases inside : ∃ place ∈ places rodata modules, a ∈ wordCells (word place)
    · obtain ⟨⟨module, entry⟩, here, i, bound, rfl⟩ := inside
      cases entry with
      | none =>
        obtain ⟨member, present⟩ := mem_places_got.mp here
        exact (gots module member present i bound rfl).elim
      | some entry =>
        obtain ⟨member, listed, absolute⟩ := mem_places_entry.mp here
        have behind : width entry ≤ i := not_lt.mp fun inside =>
          slots module member entry listed absolute i inside rfl
        have other : elfRType entry.r_info ≠ archRelative := by
          intro relative
          rw [width_of_relative relative] at behind
          omega
        obtain ⟨-, kept⟩ := (exact_iff _ other).mp
          (exact module member entry listed absolute other)
        refine (initializeRtld_slot wellFormed one before here bound).trans ?_
        rw [kept i behind bound, wordByte_load _ _ bound]
        rfl
    · exact initializeRtld_outside wellFormed one before fun place here there =>
        inside ⟨place, here, there⟩

/-- Relocation does what the tables ask for exactly when every entry with a symbol is exact. -/
theorem relocated_iff_allExact (lookups : Lookups) (rodata : Memory) (modules : List Loaded)
    (before : Memory) (wellFormed : WellFormed lookups rodata modules)
    (one : ∀ module ∈ modules, OneTable module) :
    Relocated lookups rodata modules before (initializeRtld lookups rodata modules before) ↔
      AllExact lookups rodata modules before :=
  ⟨allExact_of_relocated wellFormed one, relocated_of_allExact wellFormed one⟩

end

/-! ## A reference to a weak symbol -/

def weakSection : List ElfDyn := [⟨dtRela, 0x100⟩, ⟨dtRelaSz, 24⟩, ⟨dtNull, 0⟩]

theorem parsed_weakSection : Ro.Detail.parseDynamic 0x1000 weakSection =
    some { rela := 0x1100, relaSize := 24, relaCount := 1 } := rfl

/-- A module with one entry, for eight bytes behind a weak symbol. -/
def weakModule : Loaded where
  moduleBase := 0x1000
  dynamic := weakSection
  data := { rela := 0x1100, relaSize := 24, relaCount := 1 }
  parsed := parsed_weakSection
  pltGot := 0x1300
  dynsym _ := ⟨1, 0x20, 0⟩
  dynstr _ := [0x66]
  getSymbolByName _ := none

def weakEntry : Ro.Entry := .rela ⟨0x200, 0x100000101, 8⟩

def weakTable : Memory :=
  store (store (store (fun _ => 0) 0x1100 0x200) 0x1108 0x100000101) 0x1110 8

/-- All symbols are at this address, or there are none. -/
def lookupsAt (address : Ptr) : Lookups := ⟨fun _ => address, none⟩

theorem entries_weakModule : weakModule.entries weakTable = [weakEntry] := by decide

theorem wellFormed_weakModule (address : Ptr) :
    WellFormed (lookupsAt address) weakTable [weakModule] where
  absent := by
    intro module member
    obtain rfl := List.mem_singleton.mp member
    constructor <;> decide
  plt := by
    intro module member entry listed
    obtain rfl := List.mem_singleton.mp member
    cases listed
  relative := by
    intro module member entry listed
    obtain rfl := List.mem_singleton.mp member
    have tables : weakModule.dynTables weakTable = [weakEntry] := by decide
    rw [tables] at listed
    obtain rfl := List.mem_singleton.mp listed
    have other : elfRType weakEntry.r_info ≠ archRelative := by decide
    exact fun relative => (other relative).elim
  apart := by
    have written : places weakTable [weakModule] =
        [(weakModule, some weakEntry), (weakModule, none)] := by
      simp only [places, List.flatMap_cons, List.flatMap_nil, entries_weakModule]
      rfl
    rw [written, List.pairwise_pair]
    decide

theorem relocated_weakModule : Relocated (lookupsAt 0x5000) weakTable [weakModule] (fun _ => 0)
    (initializeRtld (lookupsAt 0x5000) weakTable [weakModule] fun _ => 0) := by
  refine (relocated_iff_allExact _ _ _ _ (wellFormed_weakModule _) ?_).mpr ?_
  · intro module member
    obtain rfl := List.mem_singleton.mp member
    exact .inr rfl
  · intro module member entry listed _ _
    obtain rfl := List.mem_singleton.mp member
    rw [entries_weakModule] at listed
    obtain rfl := List.mem_singleton.mp listed
    intro four
    revert four
    decide

/-- Without the symbol the slot does not get the addend. -/
theorem weakModule_not_relocated : WellFormed (lookupsAt 0) weakTable [weakModule] ∧
    OneTable weakModule ∧ ¬ Relocated (lookupsAt 0) weakTable [weakModule] (fun _ => 0)
      (initializeRtld (lookupsAt 0) weakTable [weakModule] fun _ => 0) := by
  refine ⟨wellFormed_weakModule 0, .inr rfl, fun relocated => ?_⟩
  have low := relocated.slots weakModule List.mem_cons_self weakEntry
    (by rw [entries_weakModule]; exact List.mem_cons_self) (by decide) 8 (by decide) 0 (by decide)
  revert low
  decide

/-! ## Two tables and one pointer -/

def bothSection : List ElfDyn :=
  [⟨dtRel, 0x100⟩, ⟨dtRelSz, 16⟩, ⟨dtRela, 0x140⟩, ⟨dtRelaSz, 24⟩, ⟨dtNull, 0⟩]

theorem parsed_bothSection : Ro.Detail.parseDynamic 0x1000 bothSection =
    some { rel := 0x1100, relSize := 16, relCount := 1, rela := 0x1140, relaSize := 24,
           relaCount := 1 } := rfl

/-- A module with a relative entry in each of its two tables. -/
def bothModule : Loaded where
  moduleBase := 0x1000
  dynamic := bothSection
  data := { rel := 0x1100, relSize := 16, relCount := 1, rela := 0x1140, relaSize := 24,
            relaCount := 1 }
  parsed := parsed_bothSection
  pltGot := 0
  dynsym _ := ⟨0, 0, 0⟩
  dynstr _ := []
  getSymbolByName _ := none

def firstEntry : Ro.Entry := .rel ⟨0x200, 0x403⟩

def secondEntry : Ro.Entry := .rela ⟨0x208, 0x403, 0x300⟩

def bothTables : Memory :=
  store (store (store (store (store (fun _ => 0) 0x1100 0x200) 0x1108 0x403) 0x1140 0x208)
    0x1148 0x403) 0x1150 0x300

theorem entries_bothModule : bothModule.entries bothTables = [firstEntry, secondEntry] := by
  decide

/-- The entry of the first table is not read: its slot is not relocated. -/
theorem bothModule_not_relocated : WellFormed (lookupsAt 0) bothTables [bothModule] ∧
    ¬ OneTable bothModule ∧ ¬ Relocated (lookupsAt 0) bothTables [bothModule] (fun _ => 0)
      (initializeRtld (lookupsAt 0) bothTables [bothModule] fun _ => 0) := by
  refine ⟨⟨?_, ?_, ?_, ?_⟩, by unfold OneTable; decide, fun relocated => ?_⟩
  · intro module member
    obtain rfl := List.mem_singleton.mp member
    constructor <;> decide
  · intro module member entry listed
    obtain rfl := List.mem_singleton.mp member
    cases listed
  · intro module member entry listed relative
    obtain rfl := List.mem_singleton.mp member
    have tables : bothModule.dynTables bothTables = [firstEntry, secondEntry] := by decide
    rw [tables] at listed
    rcases List.mem_pair.mp listed with rfl | rfl <;> decide
  · have written : places bothTables [bothModule] =
        [(bothModule, some firstEntry), (bothModule, some secondEntry)] := by
      simp only [places, List.flatMap_cons, List.flatMap_nil, entries_bothModule]
      rfl
    rw [written, List.pairwise_pair]
    decide
  · have low := relocated.slots bothModule List.mem_cons_self firstEntry
      (by rw [entries_bothModule]; exact List.mem_cons_self) (by decide) 0x1000 (by decide) 1
      (by decide)
    revert low
    decide

end Hakkun.Rtld.Detail
