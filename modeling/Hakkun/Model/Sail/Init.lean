import Hakkun.Model.Ro.ElfUtil
import Hakkun.Model.Util.Hash

/-! # Self relocation

Translated from `hk/sail/init.cpp`. The symbol database is given by what `lookupSymbolFromDb`
returns for a name and an abort flag; a lookup that aborts has no result.
-/

namespace Hakkun.Sail

open Hakkun.Ro

/-- What `loadSymbols` reads: the module's dynamic section, its names and the symbol database. -/
structure LoadInput where
  moduleStart : Ptr
  data : DynamicData
  dynstr : U32 → List Util.CChar
  lookupSymbolFromDb : List Util.CChar → Bool → Option Ptr

namespace LoadInput

variable (input : LoadInput)

/-- Where an entry's slot is. -/
def slot (entry : Ro.Entry) : Ptr := input.moduleStart + entry.r_offset

def symbol (entry : Ro.Entry) : ElfSym := input.data.dynsym (elfRSym entry.r_info)

/-- The lookup of an entry's symbol. -/
def lookup (entry : Ro.Entry) : Option Ptr :=
  input.lookupSymbolFromDb (input.dynstr (input.symbol entry).st_name)
    (elfStBind (input.symbol entry).st_info ≠ stbWeak)

/-- The callback of `loadSymbols`. -/
def loadSymbol (memory : Memory) (entry : Ro.Entry) : Option Memory :=
  if (input.symbol entry).st_name ≠ 0 then
    (input.lookup entry).map (store memory (input.slot entry))
  else some memory

/-- `loadSymbols`. -/
def loadSymbols (memory : Memory) : Option Memory :=
  input.data.forEachPltRelRela.bind fun entries => entries.foldlM input.loadSymbol memory

end LoadInput

end Hakkun.Sail
