import Hakkun.Model.Ro.ElfUtil

/-! # The dynamic section and the walk over its relocation tables

Translated from `parseDynamic` and `detail::DynamicData` of `hk/ro/ElfUtil.h` at 64 bits. Here the
tables stay in memory: a callback gets a pointer to an entry, and every read of the walk is kept
with the table that it was meant for.
-/

namespace Hakkun.Ro

/-- `Elf_Dyn`, whose union has one 64-bit word. -/
structure ElfDyn where
  d_tag : U64
  d_un : U64
  deriving DecidableEq

def dtNull : U64 := 0
def dtPltRelSz : U64 := 2
def dtRela : U64 := 7
def dtRelaSz : U64 := 8
def dtRelaEnt : U64 := 9
def dtSymEnt : U64 := 11
def dtRel : U64 := 17
def dtRelSz : U64 := 18
def dtRelEnt : U64 := 19
def dtPltRel : U64 := 20
def dtJmpRel : U64 := 23

/-- The two formats of a relocation entry. -/
inductive Format where
  | rel
  | rela
  deriving DecidableEq

/-- `sizeof(Elf_Rel)` and `sizeof(Elf_Rela)`. -/
def Format.entrySize : Format → ℕ
  | .rel => 16
  | .rela => 24

/-- `sizeof(Elf_Sym)`. -/
def symSize : U64 := 24

/-- A callback: the format says which of its two pointers is not null. -/
structure Call where
  format : Format
  entry : Ptr
  deriving DecidableEq

inductive Table where
  | plt
  | rel
  | rela
  deriving DecidableEq

/-- A read at an offset in one of the tables. -/
structure TableRead where
  table : Table
  offset : ℕ
  size : ℕ
  deriving DecidableEq

/-- What a walk over the tables does, in order. -/
structure Walk where
  calls : List Call
  reads : List TableRead
  deriving DecidableEq

def Walk.append (first second : Walk) : Walk :=
  ⟨first.calls ++ second.calls, first.reads ++ second.reads⟩

/-- The address of entry `i` of an array. -/
def entryAt (base : Ptr) (format : Format) (i : ℕ) : Ptr :=
  base + BitVec.ofNat 64 (i * format.entrySize)

/-- One iteration that calls back: the whole entry is readable to the callback. -/
def visit (table : Table) (base : Ptr) (format : Format) (i : ℕ) : Call × TableRead :=
  (⟨format, entryAt base format i⟩, ⟨table, i * format.entrySize, format.entrySize⟩)

/-- The iterations `first … first + count - 1`. -/
def visits (table : Table) (base : Ptr) (format : Format) (first count : ℕ) : Walk :=
  ⟨(List.range' first count).map fun i => (visit table base format i).1,
    (List.range' first count).map fun i => (visit table base format i).2⟩

namespace Detail

/-- The fields of `detail::DynamicData` that the relocation tables are walked with. -/
structure DynamicData where
  rel : Ptr := 0
  rela : Ptr := 0
  plt : Ptr := 0
  relSize : U64 := 0
  relaSize : U64 := 0
  relCount : U64 := 0
  relaCount : U64 := 0
  pltRelSize : U64 := 0
  isRela : Bool := true

namespace DynamicData

/-- The `switch` of `parseDynamic`; there is no result if an assertion fails. -/
def parseEntry (moduleBase : Ptr) (data : DynamicData) (dynamic : ElfDyn) : Option DynamicData :=
  if dynamic.d_tag = dtPltRelSz then some { data with pltRelSize := dynamic.d_un }
  else if dynamic.d_tag = dtRel then some { data with rel := moduleBase + dynamic.d_un }
  else if dynamic.d_tag = dtRela then some { data with rela := moduleBase + dynamic.d_un }
  else if dynamic.d_tag = dtJmpRel then some { data with plt := moduleBase + dynamic.d_un }
  else if dynamic.d_tag = dtRelSz then some { data with relSize := dynamic.d_un }
  else if dynamic.d_tag = dtRelaSz then some { data with relaSize := dynamic.d_un }
  else if dynamic.d_tag = dtRelEnt then
    if dynamic.d_un = BitVec.ofNat 64 Format.rel.entrySize then some data else none
  else if dynamic.d_tag = dtRelaEnt then
    if dynamic.d_un = BitVec.ofNat 64 Format.rela.entrySize then some data else none
  else if dynamic.d_tag = dtSymEnt then if dynamic.d_un = symSize then some data else none
  else if dynamic.d_tag = dtPltRel then
    if dynamic.d_un = dtRel ∨ dynamic.d_un = dtRela then
      some { data with isRela := dynamic.d_un == dtRela }
    else none
  else some data

/-- What `parseDynamic` does behind its loop. -/
def setCounts (data : DynamicData) : DynamicData :=
  { data with
    relCount := if data.relCount = 0 then data.relSize / BitVec.ofNat 64 Format.rel.entrySize
      else data.relCount
    relaCount := if data.relaCount = 0 then data.relaSize / BitVec.ofNat 64 Format.rela.entrySize
      else data.relaCount }

end DynamicData

/-- The entries that `parseDynamic` reads. -/
def beforeNull (dynamic : List ElfDyn) : List ElfDyn := dynamic.takeWhile (·.d_tag ≠ dtNull)

/-- `parseDynamic`. -/
def parseDynamic (moduleBase : Ptr) (dynamic : List ElfDyn) : Option DynamicData :=
  ((beforeNull dynamic).foldlM (DynamicData.parseEntry moduleBase) {}).map DynamicData.setCounts

namespace DynamicData

variable (memory : Memory) (data : DynamicData)

/-- `forEachRel<false>`. -/
def forEachRel : Walk :=
  if data.rel = 0 ∨ data.relSize = 0 ∨ data.relCount = 0 then ⟨[], []⟩
  else visits .rel data.rel .rel 0 data.relCount.toNat

/-- `forEachRela<false>`. -/
def forEachRela : Walk :=
  if data.rela = 0 ∨ data.relaSize = 0 ∨ data.relaCount = 0 then ⟨[], []⟩
  else visits .rela data.rela .rela 0 data.relaCount.toNat

/-- The loop of `forEachPlt<false>` from iteration `i` on: it reads `r_offset`, the first word of
an entry in both formats, and leaves at zero. There is no result when the fuel runs out. -/
def pltLoop (plt : Ptr) (format : Format) : ℕ → ℕ → Option Walk
  | 0, _ => none
  | fuel + 1, i =>
    if load memory (entryAt plt format i) = 0 then
      some ⟨[], [⟨.plt, i * format.entrySize, 8⟩]⟩
    else
      (pltLoop plt format fuel (i + 1)).map fun rest =>
        ⟨(visit .plt plt format i).1 :: rest.calls, (visit .plt plt format i).2 :: rest.reads⟩

/-- The format that `forEachPlt` casts the table to. -/
def pltFormat : Format := if data.isRela then .rela else .rel

/-- `forEachPlt<false>`. -/
def forEachPlt (fuel : ℕ) : Option Walk :=
  if data.plt = 0 then some ⟨[], []⟩ else pltLoop memory data.plt data.pltFormat fuel 0

/-- `forEachPltRelRela<false>`. -/
def forEachPltRelRela (fuel : ℕ) : Option Walk :=
  (data.forEachPlt memory fuel).map fun plt =>
    (plt.append data.forEachRel).append data.forEachRela

end DynamicData

end Detail

end Hakkun.Ro
