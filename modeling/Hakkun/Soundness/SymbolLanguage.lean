import Hakkun.Model.Sail.SymbolFile

/-! # The symbol language

The statements of a symbol file as the README documents them, how they are written, and the symbols
that they describe. Names are free of the characters that have a meaning in the language; a number
is whatever is written after `0x`. A line is a statement between any spaces, or nothing, with or
without a comment.
-/

namespace Hakkun.Sail

/-! ## Statements -/

/-- A character that does not cut a line. -/
def isWordChar (c : Char) : Bool := c ∉ [' ', '\n', '\r', '\x00', '{', '}', '#', '/']

def isNumberChar (c : Char) : Bool := isWordChar c && c ∉ [',', '(', ')']

def isNameChar (c : Char) : Bool := isNumberChar c && c ∉ ['"', '@', ':', '<', '>']

/-- A name, or the bytes of a pattern. -/
structure Ident where
  text : Text
  nonempty : text ≠ []
  chars : ∀ c ∈ text, isNameChar c = true

/-- What is written after the `0x` of a number. -/
structure Number where
  text : Text
  chars : ∀ c ∈ text, isNumberChar c = true

inductive Sign where
  | plus
  | minus

/-- `<` and `>`. -/
inductive VersionBound where
  | older
  | since

inductive DataSection where
  | text
  | rodata
  | data

inductive Statement where
  /-- `@module:version,version`, or `@module` without versions. -/
  | marker (module : Ident) (versions : List Ident)
  /-- `name = 0x1234`. -/
  | immediate (name : Ident) (offset : Number)
  /-- `name = "target"`. -/
  | dynamic (name target : Ident)
  /-- `name`. -/
  | compact (name : Ident)
  /-- `name = 0?23 @ module:section<version + 0x20`. -/
  | dataBlock (name pattern module : Ident) (section_ : Option DataSection)
      (bound : Option (VersionBound × Ident)) (addend : Option (Sign × Number))
  /-- `name = source + 0x20`. -/
  | arithmetic (name source : Ident) (sign : Sign) (addend : Number)
  /-- `name = readAdrpGlobal(source)`, or `name = readAdrpGlobal(source, 0x2)` with or without the
  space. -/
  | readAdrpGlobal (name source : Ident) (offset : Option (Bool × Number))

def Number.written (number : Number) : Text := '0' :: 'x' :: number.text

def Sign.written : Sign → Text
  | plus => ['+']
  | minus => ['-']

def VersionBound.written : VersionBound → Char
  | older => '<'
  | since => '>'

def DataSection.written : DataSection → Text
  | text => "text".toList
  | rodata => "rodata".toList
  | data => "data".toList

/-- The versions of a marker, each after a character. -/
def versionsWritten (before : Char) : List Ident → Text
  | [] => []
  | version :: rest => before :: version.text ++ versionsWritten ',' rest

/-- `module:section<version`. -/
def moduleWritten (module : Ident) (section_ : Option DataSection)
    (bound : Option (VersionBound × Ident)) : Text :=
  module.text ++ (section_.elim [] fun section_ => ':' :: section_.written) ++
    bound.elim [] fun (bound, version) => bound.written :: version.text

/-- The words of a statement. -/
def Statement.parts : Statement → List Text
  | marker module versions => ['@' :: (module.text ++ versionsWritten ':' versions)]
  | immediate name offset => [name.text, ['='], offset.written]
  | dynamic name target => [name.text, ['='], '"' :: (target.text ++ ['"'])]
  | compact name => [name.text]
  | dataBlock name pattern module section_ bound addend =>
    [name.text, ['='], pattern.text, ['@'], moduleWritten module section_ bound] ++
      addend.elim [] fun (sign, addend) => [sign.written, addend.written]
  | arithmetic name source sign addend =>
    [name.text, ['='], source.text, sign.written, addend.written]
  | readAdrpGlobal name source none =>
    [name.text, ['='], "readAdrpGlobal(".toList ++ source.text ++ [')']]
  | readAdrpGlobal name source (some (false, offset)) =>
    [name.text, ['='], "readAdrpGlobal(".toList ++ source.text ++ ',' :: (offset.written ++ [')'])]
  | readAdrpGlobal name source (some (true, offset)) =>
    [name.text, ['='], "readAdrpGlobal(".toList ++ source.text ++ [','], offset.written ++ [')']]

/-! ## What statements describe -/

/-- The value of a number that is hexadecimal to its end. -/
def Number.value? (number : Number) : Option ℕ :=
  if number.text ≠ [] ∧ number.text.all isxdigit then some (hexValue number.text) else none

/-- A number that fits in an unsigned field. -/
def Number.unsigned (number : Number) : Option U32 :=
  number.value?.bind fun value => if value < 2 ^ 32 then some (BitVec.ofNat 32 value) else none

/-- A number that fits in a signed field, with its sign. -/
def Number.signed (sign : Sign) (number : Number) : Option U32 :=
  number.value?.bind fun value =>
    match sign with
    | .plus => if value < 2 ^ 31 then some (BitVec.ofNat 32 value) else none
    | .minus => if value ≤ 2 ^ 31 then some (-BitVec.ofNat 32 value) else none

/-- The module and the versions of the latest marker. -/
structure Marker where
  moduleIdx : ℕ
  versions : List ℕ

def DataSection.limit : Option DataSection → BitVec 8
  | none => 0
  | some .text => 1
  | some .rodata => 2
  | some .data => 3

def VersionBound.boundary : Option (VersionBound × Ident) → BitVec 8
  | none => 0
  | some (.older, _) => 1
  | some (.since, _) => 2

variable (modules : ModuleList)

/-- What a data block is made of but its addend. -/
structure BlockParts where
  data : List Ro.Byte
  dataMask : List Ro.Byte
  moduleIdx : ℕ
  versionBoundary : ℕ

/-- Nothing if the pattern is none, or if the module or the version is not known. -/
def blockParts (pattern module : Ident) (bound : Option (VersionBound × Ident)) :
    Option BlockParts := do
  let (data, dataMask) ← hexStringToBytesWithMatch pattern.text
  let moduleIdx ← modules.getModuleIndex module.text
  let versionBoundary ←
    bound.elim (some 0) fun (_, version) => modules.getVersionIndex module.text version.text
  some ⟨data, dataMask, moduleIdx, versionBoundary⟩

/-- The marker after a statement and its symbols; nothing for a syntax error. -/
def Statement.describe (latest : Option Marker) : Statement → Option (Option Marker × List Symbol)
  | marker module versions => do
    let moduleIdx ← modules.getModuleIndex module.text
    let versions ← versions.mapM fun version => modules.getVersionIndex module.text version.text
    some (some ⟨moduleIdx, versions⟩, [])
  | immediate name offset => do
    let current ← latest
    let offset ← offset.unsigned
    some (latest, [⟨cStr name.text, .immediate (BitVec.ofNat 32 current.moduleIdx) offset,
      current.versions, true⟩])
  | dynamic name target => some (latest, [⟨cStr name.text, .dynamic (cStr target.text), [], true⟩])
  | compact name => some (latest, [⟨cStr name.text, .dynamic (cStr name.text), [], true⟩])
  | dataBlock name pattern module section_ bound addend => do
    let block ← blockParts modules pattern module bound
    let offset ← addend.elim (some 0) fun (sign, addend) => addend.signed sign
    some (latest, [⟨cStr name.text, .dataBlock (BitVec.ofNat 32 block.moduleIdx) block.data
      block.dataMask offset (VersionBound.boundary bound) (DataSection.limit section_)
      (BitVec.ofNat 32 block.versionBoundary), [], true⟩])
  | arithmetic name source sign addend => do
    let offset ← addend.signed sign
    some (latest, [⟨cStr name.text, .arithmetic (cStr source.text) offset, [], true⟩])
  | readAdrpGlobal name source offset => do
    let offset ← offset.elim (some 1) fun (_, offset) => offset.signed .plus
    some (latest, [⟨cStr name.text, .readADRPGlobal (cStr source.text) offset, [], true⟩])

/-- The symbols of a file, or the number of the first line with a syntax error. -/
def describe : ℕ → Option Marker → List (Option Statement) → Except ℕ (List Symbol)
  | _, _, [] => .ok []
  | line, latest, none :: rest => describe (line + 1) latest rest
  | line, latest, some statement :: rest =>
    match statement.describe modules latest with
    | none => .error (line + 1)
    | some (latest, symbols) => (describe (line + 1) latest rest).map (symbols ++ ·)

/-! ## Files -/

/-- Words between spaces. -/
inductive Layout : List Text → Text → Prop
  | nil {gap : Text} (spaces : ∀ c ∈ gap, c = ' ') : Layout [] gap
  | cons {gap word rest : Text} {words : List Text} (spaces : ∀ c ∈ gap, c = ' ')
      (more : Layout words rest) (apart : rest = [] ∨ rest.head? = some ' ') :
      Layout (word :: words) (gap ++ word ++ rest)

/-- A line of words, with or without a comment. -/
def WrittenAs (words : List Text) (line : Text) : Prop :=
  ∃ before comment, line = before ++ comment ∧ Layout words before ∧
    (comment = [] ∨ ['/', '/'].isPrefixOf comment = true) ∧ '\n' ∉ comment ∧ '\r' ∉ comment

/-- A line of a symbol file, with its end of line. -/
structure SourceLine where
  statement : Option Statement
  text : Text
  written : WrittenAs (statement.elim [] Statement.parts) text
  crlf : Bool

/-- The text of a file; the last line has no end. -/
def fileText : List SourceLine → Text
  | [] => []
  | [line] => line.text
  | line :: rest => line.text ++ (if line.crlf then ['\r', '\n'] else ['\n']) ++ fileText rest

end Hakkun.Sail
