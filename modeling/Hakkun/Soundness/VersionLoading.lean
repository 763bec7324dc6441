import Hakkun.Soundness.VersionSets
import Hakkun.Soundness.VersionTables

/-! # The modules that are loaded for the version tables

The entries are searched one after the other, and each search depends on the build ids and the names
of the modules only, which no search changes. What is left in a module is what the last entry found
that it was found for.
-/

namespace Hakkun.Sail

/-! ## The parsed list -/

def Ascending (versionList : VersionList) : Prop := (versionList.map Prod.fst).Pairwise (· < ·)

section Parse

variable {versionList : VersionList} {name : Name} {change : VersionListModule → VersionListModule}

theorem mem_updateModule {other : Name}
    (member : other ∈ (updateModule name change versionList).map Prod.fst) :
    other = name ∨ other ∈ versionList.map Prod.fst := by
  induction versionList with
  | nil => exact .inl (List.mem_singleton.mp member)
  | cons pair rest ih =>
    rw [updateModule] at member
    split at member
    · exact (List.mem_cons.mp member).imp_right (List.mem_cons_of_mem _)
    · split at member
      · exact List.mem_cons.mp member
      · rcases List.mem_cons.mp member with rfl | member
        · exact .inr (List.mem_cons_self ..)
        · exact (ih member).imp_right (List.mem_cons_of_mem _)

theorem ascending_updateModule (ascending : Ascending versionList) :
    Ascending (updateModule name change versionList) := by
  induction versionList with
  | nil => exact List.pairwise_singleton ..
  | cons pair rest ih =>
    obtain ⟨above, later⟩ := List.pairwise_cons.mp ascending
    rw [updateModule]
    split
    · case isTrue same =>
      rw [same]
      exact ascending
    · case isFalse other =>
      split
      · case isTrue below =>
        refine List.pairwise_cons.mpr ⟨fun next member => ?_, ascending⟩
        rcases List.mem_cons.mp member with rfl | member
        · exact below
        · exact List.lt_trans below (above next member)
      · case isFalse notBelow =>
        refine List.pairwise_cons.mpr ⟨fun next member => ?_, ih later⟩
        rcases mem_updateModule member with rfl | member
        · exact Std.lt_of_le_of_ne (List.not_lt.mp notBelow) (Ne.symm other)
        · exact above next member

theorem ascending_parseListParts {state state' : ListState} {parts : List Text}
    (ascending : Ascending state.modules) (parsed : parseListParts state parts = .ok state') :
    Ascending state'.modules := by
  have module (name : Text) (what : Option Text) :
      Ascending (parseModule state name what).modules := by
    cases what with
    | none => exact ascending
    | some what => exact ascending_updateModule ascending
  revert parsed
  fun_cases parseListParts state parts with
  | case1 =>
    rintro ⟨⟩
    exact ascending
  | case5 | case6 =>
    rintro ⟨⟩
    exact module _ _
  | case8 first _ equals hex =>
    intro parsed
    cases read : parseBuildId hex with
    | error failure =>
      rw [read] at parsed
      cases parsed
    | ok id =>
      rw [read] at parsed
      cases parsed
      exact ascending_updateModule ascending
  | case2 | case3 | case4 | case7 | case9 => rintro ⟨⟩

theorem ascending_parseListLines {lineNumber : ℕ} {state state' : ListState} {lines : List Text}
    (ascending : Ascending state.modules)
    (parsed : parseListLines lineNumber state lines = .ok state') : Ascending state'.modules := by
  induction lines generalizing lineNumber state with
  | nil =>
    cases parsed
    exact ascending
  | cons line rest ih =>
    rw [parseListLines] at parsed
    split at parsed
    · cases parsed
    · case h_2 next own => exact ih (ascending_parseListParts ascending own) parsed

/-- The modules of a version list have different names. -/
theorem nodup_of_parseVersionList {data : Text}
    (parsed : parseVersionList data = .ok versionList) : (versionList.map Prod.fst).Nodup := by
  rw [parseVersionList] at parsed
  cases lines : parseListLines 0 {} (getLines (removeCrlf data)) with
  | error failure =>
    rw [lines] at parsed
    cases parsed
  | ok state =>
    rw [lines] at parsed
    cases parsed
    have start : Ascending ({} : ListState).modules := List.Pairwise.nil
    refine (ascending_parseListLines start lines).imp fun {a b} below => ?_
    rintro rfl
    exact List.lt_irrefl a below

end Parse

/-! ## Searching -/

/-- A module has one of some build ids. -/
def Identified (buildIds : List BuildId) (module : VersionedModule) : Prop :=
  ∃ id ∈ buildIds, module.mBuildId = some id

/-- The module with an index is the first that has one of some build ids. -/
def FirstIdentified (buildIds : List BuildId) (modules : List VersionedModule) (j : ℕ) : Prop :=
  (∃ module, modules[j]? = some module ∧ Identified buildIds module) ∧
    ∀ i < j, ∀ module, modules[i]? = some module → ¬ Identified buildIds module

/-- The module with an index has the name or the index that an entry gives. -/
def MatchesEntry (entry : TableEntry) (j : ℕ) (module : VersionedModule) : Prop :=
  (∃ moduleName, module.getModuleName = .ok moduleName ∧ nameMatches entry moduleName = true) ∨
    j = entry.moduleIndexOverride

/-- The names of all modules are found up to the first that has one of some build ids. -/
def Named (buildIds : List BuildId) (modules : List VersionedModule) : Prop :=
  ∀ (j : ℕ) (module : VersionedModule), modules[j]? = some module →
    (∀ i < j, ∀ other, modules[i]? = some other → ¬ Identified buildIds other) →
      ∃ moduleName, module.getModuleName = .ok moduleName

theorem firstIdentified_succ {buildIds : List BuildId} {module : VersionedModule}
    {modules : List VersionedModule} (not : ¬ Identified buildIds module) {j : ℕ} :
    FirstIdentified buildIds (module :: modules) (j + 1) ↔ FirstIdentified buildIds modules j := by
  constructor
  · rintro ⟨here, before⟩
    exact ⟨here, fun i below => before (i + 1) (Nat.succ_lt_succ below)⟩
  · rintro ⟨here, before⟩
    refine ⟨here, fun i below other there => ?_⟩
    cases i with
    | zero =>
      obtain rfl := Option.some.inj there
      exact not
    | succ i => exact before i (Nat.lt_of_succ_lt_succ below) other there

section Search

variable {entry : TableEntry} {versions : List (BuildId × Name)} {module : VersionedModule}
  {modules : List VersionedModule} {moduleIndex : ℕ} {gModule : Option ℕ}

/-- What the version loop finds of a module. -/
theorem matchVersion_bind (buildIds : List BuildId) (module : VersionedModule) :
    (∃ id k, module.mBuildId = some id ∧ IsFirst buildIds id k ∧
      (module.mBuildId.bind fun curBuildId => matchVersion curBuildId buildIds 0) = some (k : ℤ)) ∨
    ¬ Identified buildIds module ∧
      (module.mBuildId.bind fun curBuildId => matchVersion curBuildId buildIds 0) = none := by
  cases given : module.mBuildId with
  | none =>
    refine .inr ⟨?_, rfl⟩
    rintro ⟨id, -, own⟩
    rw [given] at own
    cases own
  | some id =>
    rcases matchVersion_spec id buildIds 0 with ⟨k, first, found⟩ | ⟨absent, none⟩
    · rw [Int.zero_add] at found
      exact .inl ⟨id, k, rfl, first, found⟩
    · refine .inr ⟨?_, none⟩
      rintro ⟨other, member, own⟩
      rw [given] at own
      exact absent (Option.some.inj own ▸ member)

theorem identified_of_isFirst {buildIds : List BuildId} {id : BuildId} {k : ℕ}
    (own : module.mBuildId = some id) (first : IsFirst buildIds id k) :
    Identified buildIds module := ⟨id, List.mem_of_getElem? first.1, own⟩

/-- What is in `gModules` after the name and the index of a module were compared. -/
def afterMatch (entry : TableEntry) (moduleName : Option Name) (moduleIndex : ℕ)
    (gModule : Option ℕ) : Option ℕ :=
  if (moduleIndex : ℤ) = entry.moduleIndexOverride then some moduleIndex
  else if nameMatches entry moduleName = true then some moduleIndex else gModule

theorem searchModules_of_identified {moduleName : Option Name} {versionIndex : ℤ}
    (named : module.getModuleName = .ok moduleName)
    (found : (module.mBuildId.bind fun curBuildId =>
      matchVersion curBuildId (versions.map Prod.fst) 0) = some versionIndex) :
    searchModules entry versions (module :: modules) moduleIndex gModule =
      .ok (some moduleIndex, some versionIndex) := by
  rw [searchModules, named, found]
  rfl

theorem searchModules_of_not {moduleName : Option Name}
    (named : module.getModuleName = .ok moduleName)
    (none : (module.mBuildId.bind fun curBuildId =>
      matchVersion curBuildId (versions.map Prod.fst) 0) = none) :
    searchModules entry versions (module :: modules) moduleIndex gModule =
      searchModules entry versions modules (moduleIndex + 1)
        (afterMatch entry moduleName moduleIndex gModule) := by
  rw [searchModules, named, none]
  rfl

theorem searchModules_of_error {fault : Fault} (faulted : module.getModuleName = .error fault) :
    searchModules entry versions (module :: modules) moduleIndex gModule = .error fault := by
  rw [searchModules, faulted]
  rfl

theorem afterMatch_ne_none {moduleName : Option Name}
    (named : module.getModuleName = .ok moduleName) :
    afterMatch entry moduleName moduleIndex gModule ≠ none ↔
      MatchesEntry entry moduleIndex module ∨ gModule ≠ none := by
  have own : (∃ name, module.getModuleName = .ok name ∧ nameMatches entry name = true) ↔
      nameMatches entry moduleName = true := by
    constructor
    · rintro ⟨name, same, there⟩
      rw [named] at same
      exact Except.ok.inj same ▸ there
    · exact fun there => ⟨moduleName, named, there⟩
  rw [MatchesEntry, own, afterMatch]
  split
  · case isTrue indexed => simp [indexed]
  · case isFalse other =>
    split
    · case isTrue there => simp [there]
    · case isFalse there => simp [there, other]

/-- What a search ends with: the first module that has one of the build ids and its version, or
whether some module is matched otherwise. -/
theorem searchModules_spec {result : Option ℕ} {found : Option ℤ}
    (searched : searchModules entry versions modules moduleIndex gModule = .ok (result, found)) :
    (∃ j module id k, FirstIdentified (versions.map Prod.fst) modules j ∧
      modules[j]? = some module ∧ module.mBuildId = some id ∧ IsFirst (versions.map Prod.fst) id k ∧
        result = some (moduleIndex + j) ∧ found = some (k : ℤ)) ∨
    (∀ module ∈ modules, ¬ Identified (versions.map Prod.fst) module) ∧ found = none ∧
      (result ≠ none ↔
        (∃ j module, modules[j]? = some module ∧ MatchesEntry entry (moduleIndex + j) module) ∨
          gModule ≠ none) := by
  induction modules generalizing moduleIndex gModule with
  | nil =>
    rw [searchModules] at searched
    obtain ⟨rfl, rfl⟩ := Prod.mk.inj (Except.ok.inj searched)
    exact .inr ⟨fun _ member => absurd member List.not_mem_nil, rfl, by simp⟩
  | cons module rest ih =>
    cases named : module.getModuleName with
    | error fault =>
      rw [searchModules_of_error named] at searched
      cases searched
    | ok moduleName =>
      rcases matchVersion_bind (versions.map Prod.fst) module with
        ⟨id, k, own, first, here⟩ | ⟨not, none⟩
      · rw [searchModules_of_identified named here] at searched
        obtain ⟨rfl, rfl⟩ := Prod.mk.inj (Except.ok.inj searched)
        refine .inl ⟨0, module, id, k, ⟨⟨module, rfl, identified_of_isFirst own first⟩, ?_⟩, rfl,
          own, first, rfl, rfl⟩
        exact fun i below => absurd below (Nat.not_lt_zero i)
      · rw [searchModules_of_not named none] at searched
        rcases ih searched with
          ⟨j, other, id, k, first, there, own, index, rfl, rfl⟩ | ⟨none, rfl, matched⟩
        · refine .inl ⟨j + 1, other, id, k, (firstIdentified_succ not).mpr first, there, own, index,
            ?_, rfl⟩
          rw [Nat.add_assoc, Nat.add_comm 1 j]
        · refine .inr ⟨List.forall_mem_cons.mpr ⟨not, none⟩, rfl, matched.trans ?_⟩
          rw [afterMatch_ne_none named]
          constructor
          · rintro (⟨j, other, there, here⟩ | here | before)
            · exact .inl ⟨j + 1, other, there, by rwa [Nat.add_comm j 1, ← Nat.add_assoc]⟩
            · exact .inl ⟨0, module, rfl, here⟩
            · exact .inr before
          · rintro (⟨j, other, there, here⟩ | before)
            · cases j with
              | zero =>
                obtain rfl := Option.some.inj there
                exact .inr (.inl here)
              | succ j =>
                exact .inl ⟨j, other, there, by rwa [Nat.add_assoc, Nat.add_comm 1 j]⟩
            · exact .inr (.inr before)

/-- A search ends if it finds the names of the modules that it gets to. -/
theorem exists_searchModules :
    (∃ result, searchModules entry versions modules moduleIndex gModule = .ok result) ↔
      Named (versions.map Prod.fst) modules := by
  induction modules generalizing moduleIndex gModule with
  | nil => exact iff_of_true ⟨_, rfl⟩ fun j module there => by cases there
  | cons module rest ih =>
    cases named : module.getModuleName with
    | error fault =>
      rw [searchModules_of_error named]
      refine iff_of_false (fun ⟨result, ended⟩ => by cases ended) fun all => ?_
      obtain ⟨name, own⟩ := all 0 module rfl fun i below => absurd below (Nat.not_lt_zero i)
      rw [named] at own
      cases own
    | ok moduleName =>
      rcases matchVersion_bind (versions.map Prod.fst) module with
        ⟨id, k, own, first, here⟩ | ⟨not, none⟩
      · rw [searchModules_of_identified named here]
        refine iff_of_true ⟨_, rfl⟩ fun j other there before => ?_
        cases j with
        | zero =>
          obtain rfl := Option.some.inj there
          exact ⟨moduleName, named⟩
        | succ j =>
          exact absurd (identified_of_isFirst own first) (before 0 (Nat.succ_pos j) module rfl)
      · rw [searchModules_of_not named none, ih]
        constructor
        · intro all j other there before
          cases j with
          | zero =>
            obtain rfl := Option.some.inj there
            exact ⟨moduleName, named⟩
          | succ j =>
            exact all j other there fun i below next here =>
              before (i + 1) (Nat.succ_lt_succ below) next here
        · intro all j other there before
          refine all (j + 1) other there fun i below next here => ?_
          cases i with
          | zero =>
            obtain rfl := Option.some.inj here
            exact not
          | succ i => exact before i (Nat.lt_of_succ_lt_succ below) next here

/-- What a search depends on. -/
def identity (module : VersionedModule) : Option BuildId × List (BitVec 8) :=
  (module.mBuildId, module.rodataBytes)

theorem searchModules_congr {others : List VersionedModule}
    (same : modules.map identity = others.map identity) :
    searchModules entry versions modules moduleIndex gModule =
      searchModules entry versions others moduleIndex gModule := by
  induction modules generalizing others moduleIndex gModule with
  | nil =>
    obtain rfl := List.map_eq_nil_iff.mp same.symm
    rfl
  | cons module rest ih =>
    obtain ⟨other, rest', rfl, head, tail⟩ := List.map_eq_cons_iff.mp same.symm
    obtain ⟨id, bytes⟩ := Prod.mk.inj head
    have name : other.getModuleName = module.getModuleName := by
      rw [VersionedModule.getModuleName, VersionedModule.getModuleName, bytes]
    rw [searchModules, searchModules, name, id]
    simp only [ih tail.symm]

end Search

end Hakkun.Sail
