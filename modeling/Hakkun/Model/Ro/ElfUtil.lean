import Hakkun.Model.Ro.RoModule
import Mathlib.Data.List.Basic

/-! # Relocation tables of a dynamic section

Translated from `hk/ro/ElfUtil.h` at 64 bits. A table is the list of its entries; of the PLT table
the loop reads what follows it in memory as well, up to an entry whose offset is zero.
-/

namespace Hakkun.Ro

structure ElfRel where
  r_offset : U64
  r_info : U64
  deriving DecidableEq

structure ElfRela where
  r_offset : U64
  r_info : U64
  r_addend : U64
  deriving DecidableEq

structure ElfSym where
  st_name : U32
  st_info : BitVec 8

/-- `ELF_R_SYM` and `ELF_R_TYPE`. -/
def elfRSym (info : U64) : ℕ := (info >>> 32).toNat
def elfRType (info : U64) : U32 := info.setWidth 32

/-- `ELF_ST_BIND`. -/
def elfStBind (info : BitVec 8) : ℕ := (info >>> 4).toNat

def stbWeak : ℕ := 2

def archAbs64 : U32 := 257
def archAbs32 : U32 := 258
def archGlobDat : U32 := 1025
def archJumpSlot : U32 := 1026
def archRelative : U32 := 1027

/-- `_HK_RO_DETAIL_DYNAMICDATA_FILTERABSOLUTE`: the types that are not skipped. -/
def isAbsolute (type : U32) : Bool :=
  type = archAbs32 || type = archAbs64 || type = archJumpSlot || type = archRelative ||
    type = archGlobDat

/-- The two pointers that the callback of `forEachPltRelRela` gets, one of which is null. -/
inductive Entry where
  | rel (entry : ElfRel)
  | rela (entry : ElfRela)
  deriving DecidableEq

def Entry.r_offset : Entry → U64
  | .rel entry => entry.r_offset
  | .rela entry => entry.r_offset

def Entry.r_info : Entry → U64
  | .rel entry => entry.r_info
  | .rela entry => entry.r_info

/-- The PLT table, and what can be read as entries behind it. -/
structure PltTable where
  table : List Entry
  behind : List Entry

/-- The part of `DynamicData` that relocation reads; there is no PLT table if `plt` is null. -/
structure DynamicData where
  rel : List ElfRel
  rela : List ElfRela
  plt : Option PltTable
  dynsym : ℕ → ElfSym

namespace DynamicData

/-- The entries of the three tables. -/
def entries (data : DynamicData) : List Entry :=
  data.plt.elim [] (·.table) ++ data.rel.map .rel ++ data.rela.map .rela

/-- `forEachPlt`: the entries up to the first offset of zero, if there is one in memory. -/
def forEachPlt (data : DynamicData) : Option (List Entry) :=
  match data.plt with
  | none => some []
  | some plt =>
    let readable := plt.table ++ plt.behind
    if readable.any (·.r_offset = 0) then
      some ((readable.takeWhile (·.r_offset ≠ 0)).filter fun entry =>
        isAbsolute (elfRType entry.r_info))
    else none

/-- `forEachRel`. -/
def forEachRel (data : DynamicData) : List Entry :=
  (data.rel.map .rel).filter fun entry => isAbsolute (elfRType entry.r_info)

/-- `forEachRela`. -/
def forEachRela (data : DynamicData) : List Entry :=
  (data.rela.map .rela).filter fun entry => isAbsolute (elfRType entry.r_info)

/-- `forEachPltRelRela`: the entries in the order of the callbacks. -/
def forEachPltRelRela (data : DynamicData) : Option (List Entry) :=
  data.forEachPlt.map fun plt => plt ++ data.forEachRel ++ data.forEachRela

end DynamicData

/-- One byte of a 64-bit word in memory. -/
def wordByte (word : U64) (i : ℕ) : Byte := (word >>> (8 * i)).setWidth 8

/-- A 64-bit store. -/
def store (memory : Memory) (address : Ptr) (word : U64) : Memory :=
  memcpy memory address (wordByte word) 8

/-- A 64-bit load. -/
def load (memory : Memory) (address : Ptr) : U64 :=
  memory (address + 7) ++ memory (address + 6) ++ memory (address + 5) ++ memory (address + 4) ++
    memory (address + 3) ++ memory (address + 2) ++ memory (address + 1) ++ memory (address + 0)

end Hakkun.Ro
