import Hakkun.Machine.Core.Store
import Hakkun.Model.Util.Hash

/-! # Baked symbol hashes

Translated from `bake_hashes.py`. The names of symbols are read from the file, and their hashes are
stored over them in a copy of it. The hash function of `mmh3` is a parameter; a name is a list of
bytes, in UTF-8.
-/

namespace Hakkun.Tools

open Machine Util

/-- What the tool sees of an `Elf64_Sym`, and the section that it is defined in. -/
structure Symbol where
  st_name : ℕ
  st_value : ℕ
  st_shndx : ℕ

/-- `get_string` of a string table at a position of the file. -/
def getString (file : List CChar) (position : ℕ) : List CChar :=
  let rest := file.drop position
  if 0 ∈ rest then rest.takeWhile (· ≠ 0) else []

/-- `len` of a name: its characters. -/
def len (name : List CChar) : ℕ := name.countP fun byte => byte &&& 0xC0 ≠ 0x80

/-- `struct.pack('<I', value)`. -/
def pack (value : U32) : List CChar :=
  (List.range 4).map fun i => (value >>> (8 * i)).setWidth 8

inductive Error where
  /-- `Exception("Sections not found")`. -/
  | sectionsNotFound
  /-- `IndexError` of a `bytearray`. -/
  | indexOutOfRange

variable (mmh3 : List CChar → U32) (file : List CChar) (dynstrOffset : ℕ)

/-- One round of the loop over the symbols; `elfData` is the copy. -/
def bakeSymbol (elfData : List CChar) (symbol : Symbol) : Option (List CChar) :=
  if symbol.st_value ≠ 0 then some elfData
  else if symbol.st_name = 0 then some elfData
  else
    let absPos := dynstrOffset + symbol.st_name
    let name := getString file absPos
    if name = [] then some elfData
    else do
      let elfData ← store elfData absPos (List.replicate (len name) 0)
      store elfData absPos (pack (mmh3 name))

def bakeHashes (dynsym : Option (List Symbol)) (dynstr : Option ℕ) : Except Error (List CChar) :=
  match dynsym, dynstr with
  | some dynsym, some dynstrOffset =>
    match dynsym.foldlM (bakeSymbol mmh3 file dynstrOffset) file with
    | some elfData => .ok elfData
    | none => .error .indexOutOfRange
  | _, _ => .error .sectionsNotFound

end Hakkun.Tools
