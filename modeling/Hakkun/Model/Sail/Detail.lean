import Hakkun.Model.Ro.RoModule
import Hakkun.Model.Sail.FakeLib
import Hakkun.Model.Util.Algorithm

/-! # Symbol lookup at run time

Translated from `hk/sail/detail.h`, `hk/sail/detail.cpp` and `readADRPGlobal` of
`hk/hook/InstrUtil.h`. Entries refer to each other by hash, so that their resolution is recursive;
fuel bounds its depth. An address that was never written is `none`.
-/

namespace Hakkun.Sail

open Util

/-- What an entry is resolved for: a name, or a precalculated hash. -/
inductive DestSymbol where
  | name (symbol : Name)
  | murmur (hash : U32)
  deriving DecidableEq

/-- An argument of a message. -/
inductive Argument where
  | destSymbol (symbol : DestSymbol)
  | number (value : ℕ)
  deriving DecidableEq

/-- How a lookup ends without a result. -/
inductive Fault where
  | abort (format : String) (arguments : List Argument)
  /-- An undefined access, or a value that was never written. -/
  | undefined
  /-- The fuel is used up. -/
  | unfinished
  deriving DecidableEq

namespace DestSymbol

/-- How the hash or the name stands in a message. -/
def conversion : DestSymbol → String
  | name _ => "%s"
  | murmur _ => "%08x"

/-- The abort for a symbol that does not resolve. -/
def unresolved (dest : DestSymbol) (kind : String) : Fault :=
  .abort ("UnresolvedSymbol: " ++ dest.conversion ++ " (" ++ kind ++ ")") [.destSymbol dest]

/-- The hash that `lookupSymbolFromDb` searches for. -/
def destHash : DestSymbol → U32
  | name symbol => Util.hashMurmur .aarch64 symbol 0
  | murmur hash => hash

end DestSymbol

/-- The first 16 bytes of a build id. -/
abbrev BuildId := Vector (BitVec 8) 16

/-- What the lookups read of a module. -/
structure LoadedModule where
  text : Ro.Range
  rodata : Ro.Range
  data : Ro.Range
  mBuildId : Option BuildId
  mVersionIndex : ℤ := -1

/-- `RoModule::range`. -/
def LoadedModule.range (module : LoadedModule) : Ro.Range :=
  ⟨module.text.mStart, module.text.mSize + module.rodata.mSize + module.data.mSize⟩

/-- The range that a data block is searched in. -/
def LoadedModule.limited (module : LoadedModule) (sectionLimit : BitVec 8) : Ro.Range :=
  match sectionLimit.toNat with
  | 1 => module.text
  | 2 => module.rodata
  | 3 => module.data
  | _ => module.range

/-- The process that symbols are looked up in. -/
structure Process where
  /-- The pointers of `gModules`. -/
  gModules : List (Option LoadedModule)
  /-- The search function that is generated for the bytes and the mask of a data block. -/
  search : List (BitVec 8) → List (BitVec 8) → Ro.Range → Ptr
  /-- `ro::lookupSymbol`. -/
  lookupSymbol : U64 → U32 → U32 → Ptr
  /-- Memory that can be read; `none` is where an access faults. -/
  read32 : Ptr → Option U32
  read64 : Ptr → Option U64
  /-- What `svc::QueryMemory` says of an address. -/
  readable : Ptr → Bool

/-! ## Versions -/

/-- The loop of `loadVersions` over the versions of an entry, which stops at the first that has the
build id. -/
def matchVersion (curBuildId : BuildId) : List BuildId → ℤ → Option ℤ
  | [], _ => none
  | buildId :: rest, versionIndex =>
    if buildId = curBuildId then some versionIndex
    else matchVersion curBuildId rest (versionIndex + 1)

/-- What `loadVersions` makes of a module that it compares with the versions of an entry. -/
def loadVersion (buildIds : List BuildId) (module : LoadedModule) : LoadedModule :=
  match module.mBuildId with
  | none => module
  | some curBuildId =>
    match matchVersion curBuildId buildIds 0 with
    | none => module
    | some versionIndex => { module with mVersionIndex := versionIndex }

/-- `isVersion`; a shift by a negative number or by 64 bits and more is undefined. -/
def isVersion (gModules : List (Option LoadedModule)) (versionsBitset : U64) (moduleIdx : U32) :
    Except Fault Bool :=
  match gModules[moduleIdx.toNat]? with
  | some (some module) =>
    if 0 ≤ module.mVersionIndex ∧ module.mVersionIndex < 64 then
      .ok (versionsBitset >>> module.mVersionIndex.toNat &&& 1 != 0)
    else .error .undefined
  | _ => .error .undefined

/-! ## The kinds of entries

Each of them gets what `*out` holds before and returns what it holds after.
-/

/-- `applyDataBlockSymbol`. -/
def applyDataBlockSymbol (process : Process) (abort : Bool) (data dataMask : List (BitVec 8))
    (moduleIdx versionBoundaryType versionBoundary sectionLimit : BitVec 8)
    (offsetToFoundBlock : U32) (out : Option Ptr) (dest : DestSymbol) :
    Except Fault (Option Ptr) :=
  match process.gModules[moduleIdx.toNat]? with
  | none => .error .undefined
  | some none => .error (.abort "UnknownModule with idx %d" [.number moduleIdx.toNat])
  | some (some module) =>
    let loadedVer := module.mVersionIndex
    -- the case of 1 falls through
    if versionBoundaryType = 1 ∧ loadedVer ≥ versionBoundary.toNat then .ok out
    else if (versionBoundaryType = 1 ∨ versionBoundaryType = 2) ∧
        loadedVer < versionBoundary.toNat then .ok out
    else
      let address := process.search data dataMask (module.limited sectionLimit)
      if abort ∧ address = 0 then .error (dest.unresolved "DataBlock")
      else .ok (some (address + offsetToFoundBlock.signExtend 64))

/-- `applyDynamicSymbol`. -/
def applyDynamicSymbol (process : Process) (abort : Bool) (lookupNameRtldHash : U64)
    (lookupNameMurmur lookupNameDjb2 : U32) (dest : DestSymbol) : Except Fault (Option Ptr) :=
  let address := process.lookupSymbol lookupNameRtldHash lookupNameDjb2 lookupNameMurmur
  if abort ∧ address = 0 then .error (dest.unresolved "Dynamic") else .ok (some address)

/-- `applyImmediateSymbol`. -/
def applyImmediateSymbol (process : Process) (abort : Bool) (versionsBitset : U64)
    (moduleIdx offsetIntoModule : U32) (out : Option Ptr) (dest : DestSymbol) :
    Except Fault (Option Ptr) :=
  match process.gModules[moduleIdx.toNat]? with
  | none => .error .undefined
  | some none => .error (.abort "UnknownModule with idx %d" [.number moduleIdx.toNat])
  | some (some module) => do
    let matching ← isVersion process.gModules versionsBitset moduleIdx
    if matching then .ok (some (module.range.mStart + offsetIntoModule.setWidth 64))
    else if abort then .error (dest.unresolved "Immediate_WrongVersion")
    else .ok out

/-- What `readADRPGlobal` reads; `none` is a failed result. -/
def readADRPGlobal (process : Process) (at_ : Ptr) (loInstrOffset : U32) :
    Except Fault (Option Ptr) :=
  match process.read32 at_ with
  | none => .error .undefined
  | some adrpInstr =>
    if adrpInstr >>> 31 &&& 0b1 ≠ 1 then .ok none
    else if adrpInstr >>> 24 &&& 0b11111 ≠ 0b10000 then .ok none
    else
      let immhi := adrpInstr >>> 5 &&& 0b111111111111111111
      let immlo := adrpInstr >>> 29 &&& 0b11
      let offset : U64 := ((immhi <<< 2 ||| immlo) <<< 12).setWidth 64
      let offset := if offset &&& 1#64 <<< 32 ≠ 0 then offset ||| 0xfff00000 else offset
      let page := (at_ &&& ~~~0xfff) + offset
      match process.read32 (at_ + loInstrOffset.signExtend 64 * 4) with
      | none => .error .undefined
      | some loInstr =>
        let imm12 := loInstr >>> 10 &&& 0b111111111111
        if loInstr >>> 31 &&& 0b1 = 0b1 ∧ loInstr >>> 22 &&& 0b11111111 = 0b11100101 then
          let size := loInstr >>> 30 &&& 0b11
          let globalPtr := page + (imm12 <<< size.toNat).setWidth 64
          if process.readable globalPtr then
            match process.read64 globalPtr with
            | none => .error .undefined
            | some value => .ok (some value)
          else .ok none
        else if loInstr >>> 23 &&& 0b11111111 = 0b00100010 then
          let sh := loInstr >>> 22 &&& 0b1
          .ok (some (page + (if sh ≠ 0 then imm12 <<< 12 else imm12).setWidth 64))
        else .ok none

/-! ## Resolution -/

/-- The entry of `gSymbols` with an index, or one of its candidates. -/
structure Location where
  index : ℕ
  candidate : Option ℕ := none
  deriving DecidableEq

/-- The `symbolPtrCache` of each entry. -/
abbrev Caches := Location → Ptr

/-- `binarySearch` over the hashes of `gSymbols`; `gNumSymbols - 1` becomes an `s32`. -/
def lookupSymbolByHash (gSymbols : List DbEntry) (nameMurmur : U32) : Option ℤ :=
  binarySearch (fun idx => gSymbols[idx]?.map fun entry => entry.getNameMurmur32.toNat) 0
    (toS32 (gSymbols.length - 1)) nameMurmur.toNat false

/-- `SymbolEntry::apply` around the function of its kind: what is cached is not computed again. -/
def withCache (location : Location) (caches : Caches)
    (apply : Except Fault (Option Ptr × Caches)) : Except Fault (Option Ptr × Caches) :=
  if caches location ≠ 1 ∧ caches location ≠ 0 then .ok (some (caches location), caches)
  else do
    let (out, caches) ← apply
    if caches location ≠ 1 then
      match out with
      | none => .error .undefined
      | some address => .ok (out, Function.update caches location address)
    else .ok (out, caches)

/-- The resolution of the source of an entry: whether it may abort, its hash, and what it is resolved
for. -/
abbrev Source := Bool → U32 → DestSymbol → Caches → Except Fault (Option Ptr × Caches)

/-- `apply` of an entry for one definition; `*out` holds `out` before. -/
def applyEntry (process : Process) (source : Source) (abort : Bool) (entry : Entry)
    (location : Location) (out : Option Ptr) (dest : DestSymbol) (caches : Caches) :
    Except Fault (Option Ptr × Caches) :=
  withCache location caches <|
    match entry.data with
    | .immediate versionsBitset moduleIdx offsetIntoModule => do
      let out ← applyImmediateSymbol process abort versionsBitset moduleIdx offsetIntoModule out dest
      .ok (out, caches)
    | .dynamic lookupNameRtldHash lookupNameMurmur lookupNameDjb2 => do
      let out ← applyDynamicSymbol process abort lookupNameRtldHash lookupNameMurmur lookupNameDjb2
        dest
      .ok (out, caches)
    | .dataBlock data dataMask moduleIdx versionBoundaryType versionBoundary sectionLimit
        offsetToFoundBlock => do
      let out ← applyDataBlockSymbol process abort data dataMask moduleIdx versionBoundaryType
        versionBoundary sectionLimit offsetToFoundBlock out dest
      .ok (out, caches)
    | .readADRPGlobal srcNameMurmur offsetToLoInstr => do
      let (at_, caches) ← source abort srcNameMurmur (.murmur entry.destNameMurmur) caches
      match at_ with
      | none => .error .undefined
      | some at_ =>
        match ← readADRPGlobal process at_ offsetToLoInstr with
        | some value => .ok (some value, caches)
        | none =>
          if abort then .error (.abort ("ReadADRPGlobal symbol failed " ++
            if dest matches .name _ then "%s" else "%x") [.destSymbol dest])
          else .ok (out, caches)
    | .arithmetic srcNameMurmur addend => do
      let (at_, caches) ← source abort srcNameMurmur (.murmur entry.destNameMurmur) caches
      match at_ with
      | none => .error .undefined
      | some at_ => .ok (some (at_ + addend.signExtend 64), caches)

/-- One of the two loops of `applyMultipleCandidateSymbol`, over the candidates from an index on;
whether it has found an address, and what `*out` holds then. -/
def applyCandidates (process : Process) (source : Source) (index : ℕ) (immediates : Bool)
    (dest : DestSymbol) :
    List Entry → ℕ → Option Ptr → Caches → Except Fault (Bool × Option Ptr × Caches)
  | [], _, out, caches => .ok (false, out, caches)
  | cur :: rest, i, out, caches =>
    if immediates ∧ ¬ cur.data matches .immediate .. then
      applyCandidates process source index immediates dest rest (i + 1) out caches
    else do
      let (out, caches) ← applyEntry process source false cur ⟨index, some i⟩ out dest caches
      match out with
      | none => .error .undefined
      | some address =>
        if address ≠ 0 then .ok (true, out, caches)
        else applyCandidates process source index immediates dest rest (i + 1) out caches

/-- `applyMultipleCandidateSymbol`: immediates are tried first. -/
def applyMultipleCandidateSymbol (process : Process) (source : Source) (index : ℕ)
    (candidates : List Entry) (dest : DestSymbol) (caches : Caches) :
    Except Fault (Option Ptr × Caches) := do
  let (found, out, caches) ←
    applyCandidates process source index true dest candidates 0 (some 0) caches
  if found then .ok (out, caches)
  else
    let (found, out, caches) ←
      applyCandidates process source index false dest candidates 0 out caches
    if found then .ok (out, caches)
    else .error (.abort ("UnresolvedSymbol: " ++ dest.conversion ++
      " (Multiple out of %zu candidates)") [.destSymbol dest, .number candidates.length])

/-- How `applyReadADRPGlobalSymbol` and `applyArithmeticSymbol` get at their source, given how the
entry with an index is applied; nothing is written to `at` before. -/
def applySource (gSymbols : List DbEntry)
    (apply : Bool → ℕ → Option Ptr → DestSymbol → Caches → Except Fault (Option Ptr × Caches)) :
    Source := fun abort srcNameMurmur dest caches =>
  match lookupSymbolByHash gSymbols srcNameMurmur with
  | none => .error .undefined
  | some idx =>
    if idx = -1 then .error (.abort "AssertionFailed: srcSym != nullptr" [])
    else apply abort idx.toNat none dest caches

/-- `SymbolEntry::apply` of the entry of `gSymbols` with an index. -/
def apply (gSymbols : List DbEntry) (process : Process) :
    ℕ → Bool → ℕ → Option Ptr → DestSymbol → Caches → Except Fault (Option Ptr × Caches)
  | 0, _, _, _, _, _ => .error .unfinished
  | fuel + 1, abort, index, out, dest, caches =>
    let source := applySource gSymbols (apply gSymbols process fuel)
    match gSymbols[index]? with
    | none => .error .undefined
    | some (.single entry) => applyEntry process source abort entry ⟨index, none⟩ out dest caches
    | some (.multiple _ candidates) =>
      withCache ⟨index, none⟩ caches
        (applyMultipleCandidateSymbol process source index candidates dest caches)

/-- `lookupSymbolFromDb`; the entry is applied with `abort` set in any case. -/
def lookupSymbolFromDb (gSymbols : List DbEntry) (process : Process) (fuel : ℕ)
    (symbol : DestSymbol) (abort : Bool) (caches : Caches) : Except Fault (Ptr × Caches) :=
  match lookupSymbolByHash gSymbols symbol.destHash with
  | none => .error .undefined
  | some idx =>
    if idx = -1 then
      if abort then .error (.abort ("UnresolvedSymbol: " ++ symbol.conversion ++
        "\nTo use dynamic linking, add the symbols you intend to access to the symbol database.")
        [.destSymbol symbol])
      else .ok (0, caches)
    else do
      let (out, caches) ← apply gSymbols process fuel true idx.toNat (some 0) symbol caches
      match out with
      | none => .error .undefined
      | some address => .ok (address, caches)

/-- The caches as sail emits them. -/
def initialCaches (gSymbols : List DbEntry) : Caches := fun location =>
  match gSymbols[location.index]?, location.candidate with
  | some (.single entry), none => entry.symbolPtrCache
  | some (.multiple _ candidates), some i =>
    (candidates[i]?.map fun entry => entry.symbolPtrCache).getD 0
  | _, _ => 0

end Hakkun.Sail
