import Hakkun.Model.Sail.Detail

/-! # Version lists

Translated from sail's `src/parser.cpp` and `src/config.cpp`. The versions of a module are kept in a
`std::map`, so that they are numbered in the order of their names, whatever their order in the file.
-/

namespace Hakkun.Sail

/-- The versions of a module, ascending by name. -/
abbrev VersionMap := List (Name × BuildId)

/-- `versions[name] = id`. -/
def insertVersion (name : Name) (id : BuildId) : VersionMap → VersionMap
  | [] => [(name, id)]
  | (other, otherId) :: rest =>
    if name = other then (name, id) :: rest
    else if name < other then (name, id) :: (other, otherId) :: rest
    else (other, otherId) :: insertVersion name id rest

/-- The versions that `parseVersionList` reads for a module, from their order in the file. -/
def parseVersions (listed : List (Name × BuildId)) : VersionMap :=
  listed.foldl (fun versions (name, id) => insertVersion name id versions) []

/-- `getVersionIndex`; `none` is -1. -/
def getVersionIndex (versions : VersionMap) (version : Name) : Option ℕ :=
  versions.findIdx? fun pair => pair.1 = version

/-- How a data block is bound to versions: by nothing, `<` or `>`. -/
inductive VersionWindow where
  | always
  | older (version : Name)
  | since (version : Name)
  deriving DecidableEq

namespace VersionWindow

/-- `DataBlockVersionBoundary`. -/
def boundary : VersionWindow → BitVec 8
  | always => 0
  | older _ => 1
  | since _ => 2

/-- `versionIndex` of a data block; `none` is a syntax error. -/
def versionIndex (versions : VersionMap) : VersionWindow → Option ℕ
  | always => some 0
  | older version => getVersionIndex versions version
  | since version => getVersionIndex versions version

end VersionWindow

/-- The symbol that `parseSymbolFile` makes of a data block. -/
def parseDataBlock (versions : VersionMap) (name : Name) (moduleIdx : U32)
    (bytes bytesMask : List (BitVec 8)) (window : VersionWindow) (section_ : BitVec 8) (offset : U32) :
    Option Symbol :=
  (window.versionIndex versions).map fun versionIndex =>
    ⟨name, .dataBlock moduleIdx bytes bytesMask offset window.boundary section_
      (BitVec.ofNat 32 versionIndex), [], true⟩

end Hakkun.Sail
