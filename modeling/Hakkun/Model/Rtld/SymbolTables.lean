import Hakkun.Model.Util.Hash

/-! # Symbols of a loaded module

Translated from the lookups of `rtld/RoModule.cpp`. The hash tables are the words that are read of
them; a string is given by its offset. A symbol that is found is given by its index. Fuel bounds the
turns of the loops.
-/

namespace Hakkun.Rtld

open Util (CChar hashElfBucket hashDjb2 hashMurmur)

structure ElfSym where
  st_name : U32
  st_shndx : BitVec 16
  deriving DecidableEq

/-- `SHN_COMMON`. -/
def shnCommon : BitVec 16 := 0xfff2

def ElfSym.isCommon (symbol : ElfSym) : Bool :=
  if symbol.st_shndx ≠ 0 then symbol.st_shndx = shnCommon else true

/-- How a lookup ends without a result: it reads outside of a table, or the loop goes on. -/
inductive LookupFault where
  | outOfBounds
  | unfinished
  deriving DecidableEq

/-- The tables of a module, as `Initialize` leaves them. -/
structure SymbolTables where
  m_IsGnuHash : Bool
  hashTable : List U32
  m_pGnuHash : List U32
  m_pDynSym : List ElfSym
  m_pStrTab : U32 → List CChar

namespace SymbolTables

variable (tables : SymbolTables)

/-- A read of a table. -/
def read {T : Type} (table : List T) (i : ℕ) : Except LookupFault T :=
  match table[i]? with
  | some entry => .ok entry
  | none => .error .outOfBounds

def name (symbol : ElfSym) : List CChar := tables.m_pStrTab symbol.st_name

/-! ## SysV tables -/

/-- The loop over a chain, for any test of a symbol's name. -/
def elfLoop (hashSize : U32) (test : List CChar → Bool) : ℕ → U32 → Except LookupFault (Option ℕ)
  | 0, _ => .error .unfinished
  | fuel + 1, i =>
    if i = 0 then .ok none
    else do
      let symbol ← read tables.m_pDynSym i.toNat
      if !symbol.isCommon && test (tables.name symbol) then .ok (some i.toNat)
      else do
        let next ← read tables.hashTable (2 + hashSize.toNat + i.toNat)
        elfLoop hashSize test fuel next

/-- A lookup in a SysV table; a division by zero is no read of a bucket. -/
def lookupElf (bucketHash : U64) (test : List CChar → Bool) (fuel : ℕ) :
    Except LookupFault (Option ℕ) := do
  let hashSize ← read tables.hashTable 0
  if hashSize = 0 then .error .outOfBounds
  else do
    let i ← read tables.hashTable (2 + bucketHash.toNat % hashSize.toNat)
    tables.elfLoop hashSize test fuel i

def getSymbolByNameElf (name : List CChar) (fuel : ℕ) : Except LookupFault (Option ℕ) :=
  tables.lookupElf (hashElfBucket .aarch64 name) (fun symbol => symbol = name) fuel

def getSymbolByHashesElf (bucketHash : U64) (murmurHash : U32) (fuel : ℕ) :
    Except LookupFault (Option ℕ) :=
  tables.lookupElf bucketHash (fun symbol => hashMurmur .aarch64 symbol 0 = murmurHash) fuel

/-! ## GNU tables -/

/-- A word of `m_pGnuBloomFilter`. -/
def bloomWord (wordIdx : ℕ) : Except LookupFault U64 := do
  let low ← read tables.m_pGnuHash (4 + 2 * wordIdx)
  let high ← read tables.m_pGnuHash (4 + 2 * wordIdx + 1)
  .ok (high ++ low)

/-- The loop over a chain; `chainPtr` is a position in the table. -/
def gnuLoop (hash : U32) (test : List CChar → Bool) :
    ℕ → U32 → ℕ → Except LookupFault (Option ℕ)
  | 0, _, _ => .error .unfinished
  | fuel + 1, symIdx, chainPtr => do
    let chainhash ← read tables.m_pGnuHash chainPtr
    let found ←
      if chainhash ^^^ hash < 2 then do
        let symbol ← read tables.m_pDynSym symIdx.toNat
        .ok (!symbol.isCommon && test (tables.name symbol))
      else .ok false
    if found then .ok (some symIdx.toNat)
    else if chainhash &&& 1 ≠ 0 then .ok none
    else gnuLoop hash test fuel (symIdx + 1) (chainPtr + 1)

/-- A lookup in a GNU table. -/
def lookupGnu (hash : U32) (test : List CChar → Bool) (fuel : ℕ) :
    Except LookupFault (Option ℕ) := do
  let nbuckets ← read tables.m_pGnuHash 0
  let symoffset ← read tables.m_pGnuHash 1
  let maskwords ← read tables.m_pGnuHash 2
  let shift2 ← read tables.m_pGnuHash 3
  let wordIdx := (maskwords - (1 : U32)) &&& (hash >>> 6)
  let bloomWord ← tables.bloomWord wordIdx.toNat
  let bit1 := hash &&& 63
  let bit2 := (hash >>> (shift2 &&& 31)) &&& 63
  let bloomMask := (1 : U64) <<< bit1 ||| (1 : U64) <<< bit2
  if bloomWord &&& bloomMask ≠ bloomMask then .ok none
  else do
    let bucketIdx := if nbuckets ≠ 0 then hash / nbuckets else 0
    let bucketsStart := 4 + (maskwords * 2).toNat
    let symIdx ← read tables.m_pGnuHash (bucketsStart + (hash - bucketIdx * nbuckets).toNat)
    if symIdx < symoffset then .ok none
    else
      tables.gnuLoop hash test fuel symIdx
        (4 + (symIdx + nbuckets + maskwords * 2 - symoffset).toNat)

def getSymbolByNameGnu (name : List CChar) (fuel : ℕ) : Except LookupFault (Option ℕ) :=
  tables.lookupGnu (hashDjb2 name) (fun symbol => symbol = name) fuel

def getSymbolByHashesGnu (djb2Hash murmurHash : U32) (fuel : ℕ) :
    Except LookupFault (Option ℕ) :=
  tables.lookupGnu djb2Hash (fun symbol => hashMurmur .aarch64 symbol 0 = murmurHash) fuel

/-! ## Lookups -/

def getSymbolByName (name : List CChar) (fuel : ℕ) : Except LookupFault (Option ℕ) :=
  if tables.m_IsGnuHash then tables.getSymbolByNameGnu name fuel
  else tables.getSymbolByNameElf name fuel

def getSymbolByHashes (bucketHash : U64) (djb2Hash murmurHash : U32) (fuel : ℕ) :
    Except LookupFault (Option ℕ) :=
  if tables.m_IsGnuHash then tables.getSymbolByHashesGnu djb2Hash murmurHash fuel
  else tables.getSymbolByHashesElf bucketHash murmurHash fuel

end SymbolTables

end Hakkun.Rtld
