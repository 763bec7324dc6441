import Hakkun.Model.Ro.Dynamic
import Hakkun.Model.Util.Hash

/-! # Relocation of the loaded modules

Translated from `RoModule::Initialize`, `Relocate` and `ResolveSymbols` of `rtld/RoModule.cpp` and
from `hk::rtld::initialize` at 64 bits. The tables are read from read-only memory, which is given
apart from the memory that is relocated. Lookups by name are given by what they return.
-/

namespace Hakkun.Rtld.Detail

open Ro
open Util (CChar)

/-- `Elf_Sym`. -/
structure ElfSym where
  st_name : U32
  st_info : BitVec 8
  st_other : BitVec 8

/-- `ELF_ST_VISIBILITY`. -/
def elfStVisibility (other : BitVec 8) : BitVec 8 := other &&& 3

def stvDefault : BitVec 8 := 0

/-- What `Initialize` reads of a module, with what `parseDynamic` makes of its section. -/
structure Loaded where
  moduleBase : Ptr
  dynamic : List ElfDyn
  data : Ro.Detail.DynamicData
  parsed : Ro.Detail.parseDynamic moduleBase dynamic = some data
  pltGot : Ptr
  dynsym : ℕ → ElfSym
  dynstr : U32 → List CChar
  /-- `GetSymbolByName`, as the `st_value` of the symbol that is found. -/
  getSymbolByName : List CChar → Option U64

/-- The fields of `nn::ro::detail::RoModule` that relocation uses; `m_pDyn` is a union. -/
structure RoModule where
  m_pPlt : Ptr
  m_pDyn : Ptr
  m_IsPltRela : Bool
  m_Base : Ptr
  m_PltRelSz : U64
  m_pStrTab : U32 → List CChar
  m_pDynSym : ℕ → ElfSym
  m_pGot : Ptr
  m_RelCount : U64
  m_RelaCount : U64
  getSymbolByName : List CChar → Option U64

/-- `Initialize`. -/
def RoModule.initializeFrom (module : Loaded) : RoModule where
  m_pPlt := module.data.plt
  m_pDyn := if module.data.rela ≠ 0 then module.data.rela else module.data.rel
  m_IsPltRela := module.data.isRela
  m_Base := module.moduleBase
  m_PltRelSz := module.data.pltRelSize
  m_pStrTab := module.dynstr
  m_pDynSym := module.dynsym
  m_pGot := module.pltGot
  m_RelCount := module.data.relCount
  m_RelaCount := module.data.relaCount
  getSymbolByName := module.getSymbolByName

/-- `LookupGlobalAuto` and `g_LookupGlobalManualFunctionPointer`. -/
structure Lookups where
  lookupGlobalAuto : List CChar → Ptr
  lookupGlobalManual : Option (List CChar → Ptr)

/-- Entry `i` of a table. -/
def readEntry (rodata : Memory) (format : Format) (entries : Ptr) (i : ℕ) : Ro.Entry :=
  let entry := entryAt entries format i
  match format with
  | .rel => .rel ⟨load rodata entry, load rodata (entry + 8)⟩
  | .rela => .rela ⟨load rodata entry, load rodata (entry + 8), load rodata (entry + 16)⟩

namespace RoModule

variable (lookups : Lookups) (rodata : Memory) (module : RoModule)

/-- `ForEachRelocation`. -/
def forEachRelocation (format : Format) (entries : Ptr) (numEntries : ℕ)
    (func : Memory → Ro.Entry → Memory) (memory : Memory) : Memory :=
  (List.range numEntries).foldl
    (fun memory i => func memory (readEntry rodata format entries i)) memory

/-- The callbacks of `Relocate`. -/
def relocateEntry (memory : Memory) : Ro.Entry → Memory
  | .rel entry =>
    if elfRType entry.r_info = archRelative then
      let ptr := module.m_Base + entry.r_offset
      store memory ptr (load memory ptr + module.m_Base)
    else memory
  | .rela entry =>
    if elfRType entry.r_info = archRelative then
      store memory (module.m_Base + entry.r_offset) (module.m_Base + entry.r_addend)
    else memory

def relocate (memory : Memory) : Memory :=
  let memory := forEachRelocation rodata .rel module.m_pDyn module.m_RelCount.toNat
    module.relocateEntry memory
  forEachRelocation rodata .rela module.m_pDyn module.m_RelaCount.toNat module.relocateEntry memory

/-- `ResolveSymbol` of a symbol; there is no address where it returns `ResultSymbolUnresolved`. -/
def resolveSymbol (symbol : ElfSym) : Option Ptr :=
  let weak := elfStBind symbol.st_info = stbWeak
  let name := module.m_pStrTab symbol.st_name
  if elfStVisibility symbol.st_other ≠ stvDefault then
    match module.getSymbolByName name with
    | none => if weak then some 0 else none
    | some st_value => some (module.m_Base + st_value)
  else
    let addr := lookups.lookupGlobalAuto name
    let addr :=
      match lookups.lookupGlobalManual with
      | some manual => if addr = 0 then manual name else addr
      | none => addr
    if addr ≠ 0 then some addr else none

/-- `ResolveSymbol` of an entry. -/
def resolveEntry (memory : Memory) (rel : Ro.Entry) : Memory :=
  if isAbsolute (elfRType rel.r_info) then
    let dest := module.m_Base + rel.r_offset
    match module.resolveSymbol lookups (module.m_pDynSym (elfRSym rel.r_info)) with
    | none => memory
    | some addr =>
      match rel with
      | .rel _ => store memory dest (load memory dest + addr)
      | .rela entry => store memory dest (addr + entry.r_addend)
  else memory

/-- The format and the number of entries that `m_pPlt` is read with. -/
def pltFormat : Format := if module.m_IsPltRela then .rela else .rel

def pltCount : ℕ := module.m_PltRelSz.toNat / module.pltFormat.entrySize

def resolveSymbols (memory : Memory) : Memory :=
  let resolve := module.resolveEntry lookups
  let memory := forEachRelocation rodata .rel module.m_pDyn module.m_RelCount.toNat resolve memory
  let memory := forEachRelocation rodata .rela module.m_pDyn module.m_RelaCount.toNat resolve memory
  let memory := forEachRelocation rodata module.pltFormat module.m_pPlt module.pltCount resolve
    memory
  if module.m_pGot ≠ 0 then store memory (module.m_pGot + 16) 0 else memory

end RoModule

/-- `hk::rtld::initialize`: each module is relocated when it is loaded and put at the front of
`g_AutoLoad`, and then the symbols of all modules are resolved. What `applyByReference` stores in
variables of a module between the two is left out. -/
def initializeRtld (lookups : Lookups) (rodata : Memory) (modules : List Loaded) (memory : Memory) :
    Memory :=
  let g_AutoLoad := (modules.map RoModule.initializeFrom).reverse
  let memory := (modules.map RoModule.initializeFrom).foldl (fun memory module =>
    module.relocate rodata memory) memory
  g_AutoLoad.foldl (fun memory module => module.resolveSymbols lookups rodata memory) memory

end Hakkun.Rtld.Detail
