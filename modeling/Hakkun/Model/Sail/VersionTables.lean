import Hakkun.Machine.Core.Assembler
import Hakkun.Model.Sail.SymbolFile

/-! # Version tables

Translated from `parseVersionList` of sail's `src/parser.cpp` and from what `generateSymbolDb` of
`src/fakelib.cpp` emits for the version list. The emitted text is a list of directives with the
texts of their operands; what is modelled of the assembler is how it reads these. The tables are
walked by `VersionLoader::loadVersions` of `hk/sail/detail.cpp`, with `getModuleName` of
`hk/ro/RoModule.h`. The modules are those of `ro::getModuleByIndex`, and `gModules` points to them
by their index.
-/

namespace Hakkun.Sail

open Machine (Fragment wordBytes)

/-! ## Version lists -/

structure VersionListModule where
  mod0Name : Name := []
  /-- An `int`. -/
  index : U32 := -1
  versions : VersionMap := []
  deriving DecidableEq

/-- A `ModuleList`, ascending by name. -/
abbrev VersionList := List (Name × VersionListModule)

/-- The bytes of a `std::string`. -/
def stringBytes (text : Text) : Name := text.map fun c => BitVec.ofNat 8 c.toNat

/-- A change of `modules[name]`, which is created if there is none. -/
def updateModule (name : Name) (change : VersionListModule → VersionListModule) :
    VersionList → VersionList
  | [] => [(name, change {})]
  | (other, module) :: rest =>
    if name = other then (name, change module) :: rest
    else if name < other then (name, change {}) :: (other, module) :: rest
    else (other, module) :: updateModule name change rest

/-- `strtoul(num, &out, 10)`; nothing if `out == num`. -/
def strtoulDecimal (num : Text) : Option U64 :=
  let (negative, rest) := takeSign (num.dropWhile isspace)
  let digits := rest.takeWhile Char.isDigit
  if digits = [] then none
  else
    let magnitude := Nat.ofDigitChars 10 digits 0
    if magnitude ≥ 2 ^ 64 then some (-1)
    else if negative then some (-BitVec.ofNat 64 magnitude)
    else some (BitVec.ofNat 64 magnitude)

/-- Why a line of a version list is not parsed: `std::stoul` throws without digits. -/
inductive LineFailure where
  | syntaxError (message : Text)
  | invalidArgument

def lineError {T : Type} (message : String) : Except LineFailure T :=
  .error (.syntaxError message.toList)

/-- `hexStringToBytes` of a text of even length. -/
def hexPairs : Text → Except LineFailure (List (BitVec 8))
  | high :: low :: rest =>
    match strtoul [high, low] with
    | none => .error .invalidArgument
    | some byte => (hexPairs rest).map (byte.setWidth 8 :: ·)
  | _ => .ok []

/-- The build id that is made of a text. -/
def parseBuildId (hex : Text) : Except LineFailure BuildId := do
  if hex.length % 2 ≠ 0 then
    .error (.syntaxError ("failed parsing bytes '".toList ++ hex ++ "'".toList))
  else
    let bytes ← hexPairs hex
    if bytes.length > 0x20 then lineError "build id size cannot exceed 32 bytes"
    else .ok (Vector.ofFn fun i => bytes.getD i 0)

/-- The variables of `parseVersionList` that are kept from line to line. -/
structure ListState where
  modules : VersionList := []
  currentModuleName : Name := []

/-- A module; its name and what is said of it. -/
def parseModule (state : ListState) (name : Text) (what : Option Text) : ListState :=
  let currentModuleName := stringBytes name
  match what with
  | none => { state with currentModuleName }
  | some what =>
    let change (module : VersionListModule) : VersionListModule :=
      match strtoulDecimal what with
      | none => { module with mod0Name := stringBytes what }
      | some index => { module with index := index.setWidth 32 }
    { modules := updateModule currentModuleName change state.modules, currentModuleName }

/-- One line, by its parts. -/
def parseListParts (state : ListState) (parts : List Text) : Except LineFailure ListState :=
  match parts with
  | [] => .ok state
  | first :: rest =>
    if ['@'].isPrefixOf first then
      if rest.length ≠ 0 ∧ rest.length ≠ 2 then lineError "not sure what this is"
      else if first.drop 1 = [] then lineError "stray @"
      else
        match rest with
        | equals :: what :: _ =>
          if equals ≠ ['='] then lineError "unknown operator"
          else .ok (parseModule state (first.drop 1) (some what))
        | _ => .ok (parseModule state (first.drop 1) none)
    else
      match rest with
      | [equals, hex] =>
        if equals ≠ ['='] then lineError "unknown operator"
        else do
          let id ← parseBuildId hex
          .ok { state with
            modules := updateModule state.currentModuleName (fun module => { module with
              versions := insertVersion (stringBytes first) id module.versions }) state.modules }
      | _ => lineError "not sure what this is"

/-- The loop over the lines; an error has the number of its line. -/
def parseListLines : ℕ → ListState → List Text → Except (ℕ × LineFailure) ListState
  | _, state, [] => .ok state
  | lineNumber, state, line :: rest =>
    match parseListParts state (splitByWhitespaceAndRemoveComments line) with
    | .error failure => .error (lineNumber + 1, failure)
    | .ok state => parseListLines (lineNumber + 1) state rest

/-- `parseVersionList`. -/
def parseVersionList (data : Text) : Except (ℕ × LineFailure) VersionList :=
  (parseListLines 0 {} (getLines (removeCrlf data))).map ListState.modules

/-! ## Emitted text -/

/-- The labels of the tables. -/
inductive TableSymbol where
  | gVersions
  | moduleVersions (module : Name)
  | moduleNames (module : Name)
  deriving DecidableEq

/-- A line of the emitted text. -/
inductive Directive where
  | label (symbol : TableSymbol)
  | word (number : Text)
  | difference (symbol base : TableSymbol)
  | byte (numbers : List Text)
  /-- The bytes between the quotes. -/
  | ascii (quoted : Name)

/-- `toHexString`. -/
def toHexString (value : ℕ) : Text := (Nat.toDigits 16 value).map Char.toUpper

/-- `"0x" + toHexString(value)`. -/
def hexLiteral (value : ℕ) : Text := '0' :: 'x' :: toHexString value

/-- What `snprintf` makes of `%3u`. -/
def padded (value : ℕ) : Text := List.leftpad 3 ' ' (Nat.toDigits 10 value)

namespace VersionListModule

/-- The first word of a module in `gVersions`. -/
def versionsWord (module : VersionListModule) (name : Name) : Directive :=
  if module.versions = [] then .word (hexLiteral 0)
  else .difference (.moduleVersions name) .gVersions

/-- The second word of a module; the index comes without `0x`. -/
def nameWord (module : VersionListModule) (name : Name) : Directive :=
  if module.index ≠ -1 then .word (toHexString (module.index ||| 1#32 <<< 16).toNat)
  else if module.mod0Name = [] then .word (hexLiteral 0)
  else .difference (.moduleNames name) .gVersions

/-- `.ascii "\0"`. -/
def nul : Directive := .ascii [0x5C, 0x30]

/-- The build id and the name of a version. -/
def version (pair : Name × BuildId) : List Directive :=
  .byte (pair.2.toList.map fun byte => padded byte.toNat) ::
    (List.range 8).map fun i => pair.1[i]?.elim nul fun c => .ascii [c]

/-- The versions of a module with their number. -/
def versionRecord (module : VersionListModule) (name : Name) : List Directive :=
  .label (.moduleVersions name) :: .word (hexLiteral module.versions.length) ::
    module.versions.flatMap version

def nameRecord (module : VersionListModule) (name : Name) : List Directive :=
  if module.mod0Name = [] then []
  else .label (.moduleNames name) :: (module.mod0Name.map (fun c => .ascii [c]) ++ [nul])

end VersionListModule

open VersionListModule

/-- `gVersions` and what it points to. -/
def emitVersions (versionList : VersionList) : List Directive :=
  .label .gVersions ::
    (versionList.flatMap fun (name, module) => [module.versionsWord name, module.nameWord name]) ++
    versionList.flatMap fun (name, module) => module.versionRecord name ++ module.nameRecord name

/-! ## How it is assembled -/

/-- A number: hexadecimal after `0x`, octal after another zero, decimal otherwise. -/
def integer : Text → Option ℕ
  | '0' :: 'x' :: digits =>
    if digits ≠ [] ∧ digits.all isxdigit then some (hexValue digits) else none
  | '0' :: digits =>
    if digits.all fun c => '0' ≤ c ∧ c ≤ '7' then some (Nat.ofDigitChars 8 digits 0) else none
  | digits =>
    if digits ≠ [] ∧ digits.all Char.isDigit then some (Nat.ofDigitChars 10 digits 0) else none

/-- A number of some bits, after spaces. -/
def number (width : ℕ) (text : Text) : Option (BitVec width) :=
  (integer (text.dropWhile (· = ' '))).bind fun value =>
    if value < 2 ^ width then some (BitVec.ofNat width value) else none

/-- A string of one character, or of `\0`; a quote ends it, a backslash escapes what comes after,
and `fputs` ends at a NUL. -/
def string : Name → Option (List (BitVec 8))
  | [c] => if c = 0x22 ∨ c = 0x5C ∨ c = 0 then none else some [c]
  | [0x5C, 0x30] => some [0]
  | _ => none

section Assemble

variable (isSymbolChar : BitVec 8 → Bool)

/-- Whether a label is a symbol, given the characters that symbols may have. -/
def isSymbol : TableSymbol → Bool
  | .gVersions => true
  | .moduleVersions module | .moduleNames module => module.all fun c => c != 0 && isSymbolChar c

/-- What a line says. -/
def Directive.fragment : Directive → Option (Fragment TableSymbol)
  | label symbol => if isSymbol isSymbolChar symbol then some (.label symbol) else none
  | word text => (number 32 text).map fun value => .data (wordBytes value)
  | difference symbol base =>
    if isSymbol isSymbolChar symbol ∧ isSymbol isSymbolChar base then some (.difference symbol base)
    else none
  | byte numbers => (numbers.mapM (number 8)).map .data
  | ascii quoted => (string quoted).map .data

/-- The bytes from `gVersions` on. -/
def assembleVersions (versionList : VersionList) : Option (List (BitVec 8)) := do
  let source ← (emitVersions versionList).mapM (Directive.fragment isSymbolChar)
  Fragment.assemble source

end Assemble

/-- `gNumModules`, which is emitted as a word and read as two: what follows is padding, since the
modules before it take a multiple of eight bytes and the tables are aligned. -/
def gNumModules (versionList : VersionList) : Option U64 :=
  (number 32 (hexLiteral versionList.length)).map fun value => value.setWidth 64

end Hakkun.Sail

/-! ## Loading versions -/

namespace Hakkun.Sail

open Machine (readWord)
open Util (hashMurmur)

/-! ## The tables -/

/-- What `loadVersions` reads of a module in the tables. -/
structure TableEntry where
  /-- Build ids and names, unless there is no list. -/
  versions : Option (List (BuildId × Name))
  moduleIndexOverride : ℤ
  mod0Name : Option Name

/-- The bytes from an offset on up to a NUL. -/
def readString (table : List (BitVec 8)) (offset : ℕ) : Option Name :=
  if 0 ∈ table.drop offset then some ((table.drop offset).takeWhile (· ≠ 0)) else none

/-- An element of `buildIds`. -/
def readVersion (table : List (BitVec 8)) (offset : ℕ) : Option (BuildId × Name) :=
  if offset + 24 ≤ table.length then
    some (Vector.ofFn fun i => table.getD (offset + i) 0, (table.drop (offset + 16)).take 8)
  else none

def readVersions (table : List (BitVec 8)) : ℕ → ℕ → Option (List (BuildId × Name))
  | _, 0 => some []
  | offset, numVersions + 1 => do
    let version ← readVersion table offset
    let rest ← readVersions table (offset + 24) numVersions
    some (version :: rest)

/-- `moduleIndexOverride`. -/
def moduleIndexOverride (mod0NameOffsetOrVersionIndex : U32) : ℤ :=
  if mod0NameOffsetOrVersionIndex &&& 1#32 <<< 16 ≠ 0 then
    (mod0NameOffsetOrVersionIndex &&& 0xF).toNat
  else -1

/-- The string that `mod0Name` points to, unless it is null. -/
def readMod0Name (table : List (BitVec 8)) (mod0NameOffsetOrVersionIndex : U32) :
    Option (Option Name) :=
  if mod0NameOffsetOrVersionIndex = 0 ∨ moduleIndexOverride mod0NameOffsetOrVersionIndex ≠ -1 then
    some none
  else (readString table mod0NameOffsetOrVersionIndex.toNat).map some

/-- The versions at an offset, unless it is zero. -/
def readVersionList (table : List (BitVec 8)) (versionsOffset : U32) :
    Option (Option (List (BuildId × Name))) :=
  if versionsOffset = 0 then some none
  else do
    let numVersions ← readWord table versionsOffset.toNat
    (readVersions table (versionsOffset.toNat + 4) numVersions.toNat).map some

/-- A module of the tables; `none` where there is nothing to read. -/
def readEntry (table : List (BitVec 8)) (i : ℕ) : Option TableEntry := do
  let versionsOffset ← readWord table (8 * i)
  let mod0NameOffsetOrVersionIndex ← readWord table (8 * i + 4)
  let mod0Name ← readMod0Name table mod0NameOffsetOrVersionIndex
  let versions ← readVersionList table versionsOffset
  some ⟨versions, moduleIndexOverride mod0NameOffsetOrVersionIndex, mod0Name⟩

/-! ## Modules -/

/-- What `loadVersions` uses of a `RoModule`. -/
structure VersionedModule extends LoadedModule where
  /-- Memory from the start of the rodata section on. -/
  rodataBytes : List (BitVec 8)
  mVersionName : Name := List.replicate 9 0
  mVersionNameHash : U32 := 0

namespace VersionedModule

/-- The loop of `findRodataAttribute` for the name of the module, after the type of an attribute. -/
def findModuleName (rodata : List (BitVec 8)) : ℕ → ℕ → U32 → Except Fault (Option ℕ)
  | 0, _, _ => .error .undefined
  | fuel + 1, iter, current =>
    let iter := iter + 4
    if current = 0 then .ok (some iter)
    else if current = 1 then
      let iter := iter + 8
      match readWord rodata iter with
      | none => .error .undefined
      | some current => findModuleName rodata fuel iter current
    else .error (.abort "Unknown RodataAttribute: %d %p" [.number current.toNat])

/-- `getModuleName`; the name is after its length. -/
def getModuleName (module : VersionedModule) : Except Fault (Option Name) :=
  match readWord module.rodataBytes 0 with
  | none => .error .undefined
  | some current =>
    if current ≥ 2 then .ok none
    else do
      match ← findModuleName module.rodataBytes module.rodataBytes.length 0 current with
      | none => .ok none
      | some at_ =>
        match readString module.rodataBytes (at_ + 4) with
        | none => .error .undefined
        | some name => .ok (some name)

/-- What is written to the module when one of the versions has its build id. -/
def setVersion (module : VersionedModule) (versionIndex : ℤ) (name : Name) : VersionedModule :=
  { module with
    mVersionIndex := versionIndex
    mVersionName := name ++ [0]
    mVersionNameHash := hashMurmur .aarch64 (name.takeWhile (· ≠ 0)) 0 }

end VersionedModule

/-! ## The loops -/

/-- `mod0Name != nullptr && moduleName != nullptr && strstr(moduleName, mod0Name)`. -/
def nameMatches (entry : TableEntry) (moduleName : Option Name) : Bool :=
  match entry.mod0Name, moduleName with
  | some mod0Name, some moduleName => moduleName.tails.any mod0Name.isPrefixOf
  | _, _ => false

/-- The loop over the modules from some index on: what is in `gModules` after it, and the version
that ended it. -/
def searchModules (entry : TableEntry) (versions : List (BuildId × Name)) :
    List VersionedModule → ℕ → Option ℕ → Except Fault (Option ℕ × Option ℤ)
  | [], _, gModule => .ok (gModule, none)
  | module :: rest, moduleIndex, gModule => do
    let moduleName ← module.getModuleName
    let gModule := if nameMatches entry moduleName then some moduleIndex else gModule
    let gModule := if moduleIndex = entry.moduleIndexOverride then some moduleIndex else gModule
    match module.mBuildId.bind fun curBuildId =>
        matchVersion curBuildId (versions.map Prod.fst) 0 with
    | none => searchModules entry versions rest (moduleIndex + 1) gModule
    | some versionIndex => .ok (some moduleIndex, some versionIndex)

/-- What `loadVersions` writes to. -/
structure LoaderState where
  gModules : List (Option ℕ)
  modules : List VersionedModule

/-- What a search for an entry leaves. -/
def LoaderState.store (state : LoaderState) (i : ℕ) (versions : List (BuildId × Name))
    (gModule : Option ℕ) (found : Option ℤ) : LoaderState where
  gModules := state.gModules.set i gModule
  modules :=
    match gModule, found with
    | some moduleIndex, some versionIndex =>
      let name := (versions.map Prod.snd).getD versionIndex.toNat []
      state.modules.modify moduleIndex (·.setVersion versionIndex name)
    | _, _ => state.modules

/-- What a turn does with an entry. -/
def loadEntry (state : LoaderState) (i : ℕ) (entry : TableEntry) : Except Fault LoaderState :=
  match entry.versions with
  | none => .ok state
  | some versions => do
    let (gModule, found) ← searchModules entry versions state.modules 0 (state.gModules.getD i none)
    .ok (state.store i versions gModule found)

/-- One turn of the loop over the modules of the tables. -/
def loadTurn (table : List (BitVec 8)) (state : LoaderState) (i : ℕ) : Except Fault LoaderState :=
  match readEntry table i with
  | none => .error .undefined
  | some entry => loadEntry state i entry

/-- `loadVersions`. -/
def loadVersions (table : List (BitVec 8)) (gNumModules : ℕ) (state : LoaderState) :
    Except Fault LoaderState :=
  (List.range gNumModules).foldlM (loadTurn table) state

end Hakkun.Sail
