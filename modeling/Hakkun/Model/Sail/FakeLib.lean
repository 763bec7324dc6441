import Hakkun.Model.Util.Hash

/-! # The symbol database that sail emits

Translated from sail's `include/symbol.h`, `src/config.cpp` and `src/fakelib.cpp`. What the assembler
makes of the emitted text is given directly: the entries of `gSymbols` in order, each with the
candidates that it refers to. `none` is where sail aborts or its behaviour is undefined.
-/

namespace Hakkun.Sail

open Util

/-- A name in a symbol file, up to its NUL. -/
abbrev Name := List CChar

/-- What a symbol is defined by. -/
inductive SymbolData where
  | immediate (moduleIdx offset : U32)
  | dynamic (name : Name)
  | dataBlock (moduleIdx : U32) (data dataMask : List (BitVec 8)) (offs : U32)
      (boundary sectionLimit : BitVec 8) (versionBoundary : U32)
  | readADRPGlobal (atSymbol : Name) (offsetToLoInstr : U32)
  | arithmetic (symbolToAddTo : Name) (offset : U32)
  deriving DecidableEq

structure Symbol where
  name : Name
  data : SymbolData
  versionIndices : List ℕ := []
  useCache : Bool := true
  deriving DecidableEq

/-- `hashMurmur(name.c_str())`. -/
def nameHash (name : Name) : U32 := hashMurmur .host name 0

def Symbol.hash (sym : Symbol) : U32 := nameHash sym.name

/-- What an entry of the database holds besides its name and its cache. -/
inductive EntryData where
  | immediate (versionsBitset : U64) (moduleIdx offsetIntoModule : U32)
  | dynamic (lookupNameRtldHash : U64) (lookupNameMurmur lookupNameDjb2 : U32)
  /-- The search function is given by the bytes and the mask that it compares. -/
  | dataBlock (data dataMask : List (BitVec 8))
      (moduleIdx versionBoundaryType versionBoundary sectionLimit : BitVec 8)
      (offsetToFoundBlock : U32)
  | readADRPGlobal (srcNameMurmur offsetToLoInstr : U32)
  | arithmetic (srcNameMurmur addend : U32)
  deriving DecidableEq

/-- An entry for one definition. -/
structure Entry where
  destNameMurmur : U32
  symbolPtrCache : U64
  data : EntryData
  deriving DecidableEq

/-- An entry of `gSymbols`. -/
inductive DbEntry where
  | single (entry : Entry)
  | multiple (destNameMurmur : U32) (candidates : List Entry)
  deriving DecidableEq

namespace DbEntry

/-- `getNameMurmur32`. -/
def getNameMurmur32 : DbEntry → U32
  | single entry => entry.destNameMurmur
  | multiple destNameMurmur _ => destNameMurmur

/-- The entries for single definitions. -/
def candidates : DbEntry → List Entry
  | single entry => [entry]
  | multiple _ candidates => candidates

end DbEntry

/-- `1 << ver`, which is an `int`, converted to `u64`. -/
def versionBit (ver : ℕ) : Option U64 :=
  if ver < 32 then some ((1#32 <<< ver).signExtend 64) else none

/-- `versions`. -/
def versionsBitset (versionIndices : List ℕ) : Option U64 :=
  versionIndices.foldlM (fun versions ver => (versionBit ver).map (versions ||| ·)) 0

/-- The hash of the first symbol with the hash of a name. -/
def findSource (sorted : List Symbol) (name : Name) : Option U32 :=
  (sorted.find? fun symbol => symbol.hash = nameHash name).map Symbol.hash

/-- `insertSymbol`. -/
def insertSymbol (sorted : List Symbol) (sym : Symbol) : Option Entry :=
  let insert (data : EntryData) : Entry := ⟨sym.hash, if sym.useCache then 0 else 1, data⟩
  match sym.data with
  | .immediate moduleIdx offset =>
    (versionsBitset sym.versionIndices).map fun versions =>
      insert (.immediate versions moduleIdx offset)
  | .dynamic name =>
    some (insert (.dynamic (rtldElfHash .host name) (nameHash name) (djb2Hash name)))
  | .dataBlock moduleIdx data dataMask offs boundary sectionLimit versionBoundary =>
    some (insert (.dataBlock data dataMask (moduleIdx.setWidth 8) boundary
      (versionBoundary.setWidth 8) sectionLimit offs))
  | .readADRPGlobal atSymbol offsetToLoInstr =>
    (findSource sorted atSymbol).map fun hash => insert (.readADRPGlobal hash offsetToLoInstr)
  | .arithmetic symbolToAddTo offset =>
    (findSource sorted symbolToAddTo).map fun hash => insert (.arithmetic hash offset)

/-- `hashGroups[hash]` before any group is cleared. -/
def hashGroup (sorted : List Symbol) (hash : U32) : List Symbol :=
  sorted.filter fun sym => sym.hash = hash

/-- The loop over the sorted symbols; the groups of some hashes are cleared already. -/
def emitSymbols (sorted : List Symbol) : List Symbol → List U32 → Option (List DbEntry)
  | [], _ => some []
  | sym :: rest, cleared =>
    let group := if sym.hash ∈ cleared then [] else hashGroup sorted sym.hash
    if group.length = 0 then emitSymbols sorted rest cleared
    else if group.length > 1 then do
      let candidates ← group.mapM (insertSymbol sorted)
      let entries ← emitSymbols sorted rest (sym.hash :: cleared)
      some (.multiple sym.hash candidates :: entries)
    else do
      let entry ← insertSymbol sorted sym
      let entries ← emitSymbols sorted rest cleared
      some (.single entry :: entries)

/-- What `std::sort` makes of the symbols; the order of equal hashes is not specified. -/
structure Sorts (symbols sorted : List Symbol) : Prop where
  perm : sorted.Perm symbols
  ordered : sorted.Pairwise fun a b => a.hash.toNat ≤ b.hash.toNat

/-- The entries of `gSymbols`, from the sorted symbols; `gNumSymbols` is their number. -/
def generateSymbolDb (sorted : List Symbol) : Option (List DbEntry) := emitSymbols sorted sorted []

/-- `addDestinationSymbolAndCheckDuplicate`, and the hashes that it has seen after. -/
def addDestinationSymbolAndCheckDuplicate (symbolHashes : List U32) (symbol : Name) :
    Bool × List U32 :=
  let hash := nameHash symbol
  if hash ∈ symbolHashes then (false, symbolHashes) else (true, symbolHashes ++ [hash])

/-- The names that `generateFakeLib` exports. -/
def generateFakeLib (symbols : List Symbol) : List Name :=
  (symbols.foldl (fun (symbolHashes, symbolNames) symbol =>
    let (added, symbolHashes) := addDestinationSymbolAndCheckDuplicate symbolHashes symbol.name
    (symbolHashes, if added then symbolNames ++ [symbol.name] else symbolNames))
    (([] : List U32), ([] : List Name))).2

end Hakkun.Sail
