import Hakkun.Model.Sail.DataBlock
import Hakkun.Model.Sail.Parser
import Hakkun.Model.Sail.VersionList

/-! # Symbol files

Translated from `parseSymbolFile` of sail's `src/parser.cpp`, `getModuleIndex` and `getVersionIndex`
of `src/config.cpp`. `none` as the index of a module is -1.
-/

namespace Hakkun.Sail

/-! ## Numbers -/

def isspace (c : Char) : Bool := c ∈ [' ', '\t', '\n', '\x0b', '\x0c', '\r']

/-- An optional sign; whether it is a minus, and what follows it. -/
def takeSign : Text → Bool × Text
  | '-' :: rest => (true, rest)
  | '+' :: rest => (false, rest)
  | text => (false, text)

/-- An optional `0x`, which has to be followed by a digit. -/
def skipBase : Text → Text
  | '0' :: x :: d :: rest =>
    if (x = 'x' ∨ x = 'X') ∧ isxdigit d then d :: rest else '0' :: x :: d :: rest
  | text => text

def hexValue (digits : Text) : ℕ :=
  digits.foldl (fun value d => value * 16 + (digitValue d).toNat) 0

/-- What `strtoul` and `strtol` convert at base 16: a sign and a magnitude, nothing without digits. -/
def convert (num : Text) : Option (Bool × ℕ) :=
  let (negative, rest) := takeSign (num.dropWhile isspace)
  let digits := (skipBase rest).takeWhile isxdigit
  if digits = [] then none else some (negative, hexValue digits)

/-- `strtoul(num, &out, 16)`; nothing if `out == num`. -/
def strtoul (num : Text) : Option U64 :=
  (convert num).map fun (negative, magnitude) =>
    if magnitude ≥ 2 ^ 64 then -1
    else if negative then -BitVec.ofNat 64 magnitude
    else BitVec.ofNat 64 magnitude

/-- `strtol(num, &out, 16)`. -/
def strtol (num : Text) : Option U64 :=
  (convert num).map fun (negative, magnitude) =>
    if negative then -BitVec.ofNat 64 (min magnitude (2 ^ 63))
    else BitVec.ofNat 64 (min magnitude (2 ^ 63 - 1))

/-! ## Configuration -/

/-- The bytes of a text up to its NUL. -/
def cStr (text : Text) : Name :=
  (text.takeWhile fun c => c ≠ '\x00').map fun c => BitVec.ofNat 8 c.toNat

/-- `ModuleList`, ascending by name. -/
abbrev ModuleList := List (Name × VersionMap)

def ModuleList.getModuleIndex (sVersionList : ModuleList) (moduleName : Text) : Option ℕ :=
  sVersionList.findIdx? fun module => module.1 = cStr moduleName

def ModuleList.getVersionIndex (sVersionList : ModuleList) (moduleName version : Text) : Option ℕ :=
  (sVersionList.find? fun module => module.1 = cStr moduleName).bind fun module =>
    Sail.getVersionIndex module.2 (cStr version)

/-! ## Statements -/

/-- Why a line is not parsed; undefined behaviour does not have to be noticed. -/
inductive Failure where
  | syntaxError (message : Text)
  | undefined

def syntaxError {T : Type} (message : String) : Except Failure T :=
  .error (.syntaxError message.toList)

/-- A message that ends in `'%s'`. -/
def syntaxErrorAt {T : Type} (message : String) (arg : Text) : Except Failure T :=
  .error (.syntaxError (message.toList ++ " '".toList ++ arg ++ "'".toList))

/-- The variables of `parseSymbolFile` that are kept from line to line. -/
structure ParserState where
  currentModuleIndex : Option ℕ := none
  currentVersionIndices : List ℕ := []
  symbols : List Symbol := []

/-- An `int` that is -1 without an index. -/
def indexValue (index : Option ℕ) : U32 := index.elim (-1) (BitVec.ofNat 32)

def ParserState.add (state : ParserState) (symbol : Symbol) : ParserState :=
  { state with symbols := state.symbols ++ [symbol] }

def addDynamicSymbol (state : ParserState) (name dynamicSymbol : Text) : ParserState :=
  state.add ⟨cStr name, .dynamic (cStr dynamicSymbol), [], true⟩

def addImmediateSymbol (state : ParserState) (name : Text) (offset : U32) : ParserState :=
  state.add ⟨cStr name, .immediate (indexValue state.currentModuleIndex) offset,
    state.currentVersionIndices, true⟩

/-- A module/version marker. -/
def parseMarker (sVersionList : ModuleList) (state : ParserState) (part : Text) :
    Except Failure ParserState :=
  let part := part.drop 1
  if part = [] then syntaxError "stray @"
  else
    let at_ := split part ':'
    if at_.length > 2 then syntaxError "invalid module/version marker"
    else
      match at_ with
      | [] => .error .undefined
      | currentModule :: versions =>
        match sVersionList.getModuleIndex currentModule with
        | none => syntaxErrorAt "unknown module" currentModule
        | some index => do
          let currentVersions := match versions with
            | [] => []
            | listed :: _ => split listed ','
          let indices ← currentVersions.mapM fun version =>
            match sVersionList.getVersionIndex currentModule version with
            | none => syntaxErrorAt "unknown version" version
            | some verIndex => .ok verIndex
          .ok { state with currentModuleIndex := some index, currentVersionIndices := indices }

/-- A number that starts with `0x` and is read by `strtoul` or `strtol`, cut to 32 bits. -/
def parseNumber (read : Text → Option U64) (prefixError : String) (part : Text) :
    Except Failure U32 :=
  if ['0', 'x'].isPrefixOf part then
    match read (part.drop 2) with
    | none => syntaxErrorAt "not a number" part
    | some value => .ok (value.setWidth 32)
  else syntaxErrorAt prefixError part

/-- `offset *= -1`, which overflows for the least number. -/
def negate (offset : U32) : Except Failure U32 :=
  if offset = 0x80000000 then .error .undefined else .ok (-offset)

/-- `readAdrpGlobal(…)`. -/
def parseReadAdrpGlobal (state : ParserState) (name source : Text) : Except Failure ParserState :=
  match find ['('] source with
  | none => syntaxError "missing opening bracket"
  | some leftBracketAt =>
    if source.getLast? ≠ some ')' then syntaxError "missing closing bracket"
    else do
      let symbolToAddTo := (source.drop (leftBracketAt + 1)).dropLast
      let (symbolToAddTo, offsetToLoInstr) ←
        match find [','] symbolToAddTo with
        | none => .ok (symbolToAddTo, 1)
        | some commaAt =>
          match split symbolToAddTo ',' with
          | [_, component] => do
            let offset ← parseNumber strtol "not a hex number" component
            .ok (symbolToAddTo.take commaAt, offset)
          | _ => syntaxError "readAdrpGlobal commas invalid"
      .ok (state.add ⟨cStr name, .readADRPGlobal (cStr symbolToAddTo) offsetToLoInstr, [], true⟩)

/-- The position of the last such character. -/
def rfind (c : Char) (text : Text) : Option ℕ :=
  (find [c] text.reverse).map fun pos => text.length - 1 - pos

/-- `name = source`. -/
def parseAssignment (state : ParserState) (name source : Text) : Except Failure ParserState :=
  if ['0', 'x'].isPrefixOf source then do
    let offset ← parseNumber strtoul "not a number" source
    .ok (addImmediateSymbol state name offset)
  else if ['"'].isPrefixOf source then
    let endquote := rfind '"' source
    if endquote = none ∨ endquote = some 0 then syntaxError "missing end of quote"
    else .ok (addDynamicSymbol state name ((source.drop 1).take (source.length - 2)))
  else if "readAdrpGlobal".toList.isPrefixOf source then parseReadAdrpGlobal state name source
  else syntaxErrorAt "unknown symbol source" source

/-- `name = source + number`. -/
def parseArithmetic (state : ParserState) (name symbolToAddTo operator number : Text) :
    Except Failure ParserState := do
  let offset ← parseNumber strtoul "not a number" number
  let offset ← if operator = ['+'] then .ok offset else negate offset
  .ok (state.add ⟨cStr name, .arithmetic (cStr symbolToAddTo) offset, [], true⟩)

/-- The sections that a data block can be in. -/
def parseSection : List Text → Except Failure (BitVec 8)
  | [_] => .ok 0
  | [_, section_] =>
    if section_ = "text".toList then .ok 1
    else if section_ = "rodata".toList then .ok 2
    else if section_ = "data".toList then .ok 3
    else syntaxErrorAt "unknown section type" section_
  | _ => syntaxError "invalid module section"

/-- The addend of a data block. -/
def parseAddend : Option (Text × Text) → Except Failure U32
  | none => .ok 0
  | some (operator, number) => do
    let offset ← parseNumber strtoul "not a number" number
    if operator = ['+'] then .ok offset
    else if operator = ['-'] then negate offset
    else syntaxErrorAt "unknown arithmetic operator" operator

/-- A data block. -/
def parseBlock (sVersionList : ModuleList) (state : ParserState) (name pattern at_ module : Text)
    (addend : Option (Text × Text)) : Except Failure ParserState :=
  match hexStringToBytesWithMatch pattern with
  | none => syntaxErrorAt "failed parsing bytes" pattern
  | some (bytes, bytesMask) =>
    if at_ ≠ ['@'] then syntaxError "weird symbol"
    else
      let (moduleParts, boundary) : List Text × BitVec 8 :=
        if find ['>'] module ≠ none then (split module '>', 2)
        else if find ['<'] module ≠ none then (split module '<', 1)
        else ([module], 0)
      if boundary ≠ 0 ∧ moduleParts.length ≠ 2 then syntaxError "invalid module"
      else
        let sectionParts := split (moduleParts.headD []) ':'
        match sectionParts with
        | [] => .error .undefined
        | moduleName :: _ =>
          match sVersionList.getModuleIndex moduleName with
          | none => syntaxErrorAt "unknown module" moduleName
          | some moduleIdx => do
            let versionIndex ←
              match moduleParts with
              | _ :: version :: _ =>
                match sVersionList.getVersionIndex moduleName version with
                | none => syntaxErrorAt "unknown version" version
                | some versionIndex => .ok versionIndex
              | _ => .ok 0
            let section_ ← parseSection sectionParts
            let offset ← parseAddend addend
            .ok (state.add ⟨cStr name, .dataBlock (BitVec.ofNat 32 moduleIdx) bytes bytesMask offset
              boundary section_ (BitVec.ofNat 32 versionIndex), [], true⟩)

/-- One line, by its parts. -/
def parseParts (sVersionList : ModuleList) (state : ParserState) (parts : List Text) :
    Except Failure ParserState :=
  match parts with
  | [] => .ok state
  | first :: _ =>
    if ['@'].isPrefixOf first then parseMarker sVersionList state first
    else
      match parts with
      | [name, equals, source] =>
        if equals = ['='] then parseAssignment state name source
        else syntaxError "not sure what this is"
      | [name] => .ok (addDynamicSymbol state name name)
      | [name, _, source, operator, number] =>
        if operator = ['+'] ∨ operator = ['-'] then
          parseArithmetic state name source operator number
        else parseBlock sVersionList state name source operator number none
      | [name, _, pattern, at_, module, operator, number] =>
        parseBlock sVersionList state name pattern at_ module (some (operator, number))
      | _ => syntaxError "not sure what this is"

/-! ## Files -/

/-- `removeCrlf`, by the number of its turns. -/
def removeCrlfLoop : ℕ → Text → Text
  | 0, out => out
  | fuel + 1, out =>
    match find ['\r', '\n'] out with
    | some idx => removeCrlfLoop fuel (out.take idx ++ '\n' :: out.drop (idx + 2))
    | none => out

/-- `removeCrlf`; each turn removes a character. -/
def removeCrlf (str : Text) : Text := removeCrlfLoop str.length str

/-- The lines that `std::getline` reads. -/
def getLines (data : Text) : List Text :=
  let lines := data.splitOn '\n'
  if lines.getLast? = some [] then lines.dropLast else lines

/-- The loop over the lines; an error has the number of its line. -/
def parseLines (sVersionList : ModuleList) : ℕ → ParserState → List Text →
    Except (ℕ × Failure) ParserState
  | _, state, [] => .ok state
  | lineNumber, state, line :: rest =>
    match parseParts sVersionList state (splitByWhitespaceAndRemoveComments line) with
    | .error failure => .error (lineNumber + 1, failure)
    | .ok state => parseLines sVersionList (lineNumber + 1) state rest

/-- `parseSymbolFile`. -/
def parseSymbolFile (sVersionList : ModuleList) (data : Text) :
    Except (ℕ × Failure) (List Symbol) :=
  (parseLines sVersionList 0 {} (getLines (removeCrlf data))).map ParserState.symbols

end Hakkun.Sail
