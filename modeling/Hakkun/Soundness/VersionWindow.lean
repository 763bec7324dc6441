import Hakkun.Model.Sail.VersionList

/-! # Version windows of data blocks

A data block is declared for all versions, for those before a version or for those from a version
on, in the order in which the version list names them. The runtime compares indices in the order of
the names, of which it keeps 8 bits; the case for older versions falls through into the other one,
and a version outside the window is not an error.
-/

namespace Hakkun.Sail

variable {listed : List (Name × BuildId)} {module : LoadedModule} {moduleIdx : U32}
  {window : VersionWindow} {abort : Bool}

/-- The version that was identified. -/
def LoadedModule.version? (module : LoadedModule) (versions : VersionMap) : Option Name :=
  if 0 ≤ module.mVersionIndex then versions[module.mVersionIndex.toNat]?.map Prod.fst else none

/-- A loaded version is in the window, by its place in the list; a module whose version was not
identified is in none that has a bound. -/
def VersionWindow.Contains (listed : List (Name × BuildId)) (loaded : Option Name) :
    VersionWindow → Prop
  | always => True
  | older version => ∃ name, loaded = some name ∧
      (listed.map Prod.fst).idxOf name < (listed.map Prod.fst).idxOf version
  | since version => ∃ name, loaded = some name ∧
      (listed.map Prod.fst).idxOf version ≤ (listed.map Prod.fst).idxOf name

/-- The emission of a data block symbol, applied to an address that is 0 before. -/
def applyDeclared (process : Process) (abort : Bool) (sym : Symbol) (dest : DestSymbol) :
    Option (Except Fault (Option Ptr)) :=
  (insertSymbol [] sym).bind fun entry =>
    match entry.data with
    | .dataBlock data dataMask moduleIdx versionBoundaryType versionBoundary sectionLimit offset =>
      some (applyDataBlockSymbol process abort data dataMask moduleIdx versionBoundaryType
        versionBoundary sectionLimit offset (some 0) dest)
    | _ => none

/-- A data block with a window, in all processes that have loaded a module: inside the window it is
what a search in the section of the module finds, outside it is an abort or no address. -/
structure RespectsWindow (listed : List (Name × BuildId)) (module : LoadedModule) (moduleIdx : U32)
    (window : VersionWindow) (abort : Bool) : Prop where
  inside : window.Contains listed (module.version? (parseVersions listed)) →
    ∀ (process : Process) (sym : Symbol) (dest : DestSymbol) (name : Name)
      (bytes mask : List (BitVec 8)) (section_ : BitVec 8) (offset : U32),
    process.gModules[moduleIdx.toNat]? = some (some module) →
    parseDataBlock (parseVersions listed) name moduleIdx bytes mask window section_ offset = some sym →
    process.search bytes mask (module.limited section_) ≠ 0 →
    applyDeclared process abort sym dest = some (.ok (some
      (process.search bytes mask (module.limited section_) + offset.signExtend 64)))
  outside : ¬ window.Contains listed (module.version? (parseVersions listed)) →
    ∀ (process : Process) (sym : Symbol) (dest : DestSymbol) (name : Name)
      (bytes mask : List (BitVec 8)) (section_ : BitVec 8) (offset : U32),
    process.gModules[moduleIdx.toNat]? = some (some module) →
    parseDataBlock (parseVersions listed) name moduleIdx bytes mask window section_ offset = some sym →
    if abort then ∃ format arguments,
      applyDeclared process abort sym dest = some (.error (.abort format arguments))
    else applyDeclared process abort sym dest = some (.ok (some 0))

/-- The module has an index of 8 bits, and the window has no bound, or is one for older versions that
the loaded version is outside of without asking for an abort, or is one from a version on whose
index, in the order of the names and cut to 8 bits, agrees with its place in the list. -/
structure Compared (listed : List (Name × BuildId)) (module : LoadedModule) (moduleIdx : U32)
    (window : VersionWindow) (abort : Bool) (versionIndex : ℕ) : Prop where
  addressed : moduleIdx.toNat < 256
  compared : match window with
    | .always => True
    | .older _ => ¬ window.Contains listed (module.version? (parseVersions listed)) ∧ abort = false
    | .since _ =>
      (window.Contains listed (module.version? (parseVersions listed)) ∧
        (versionIndex % 256 : ℕ) ≤ module.mVersionIndex) ∨
      (¬ window.Contains listed (module.version? (parseVersions listed)) ∧
        module.mVersionIndex < (versionIndex % 256 : ℕ) ∧ abort = false)

/-! ## One application -/

theorem applyDeclared_parseDataBlock {process : Process} {sym : Symbol} {name : Name}
    {bytes mask : List (BitVec 8)} {section_ : BitVec 8} {offset : U32} {versionIndex : ℕ}
    (known : window.versionIndex (parseVersions listed) = some versionIndex)
    (parsed : parseDataBlock (parseVersions listed) name moduleIdx bytes mask window section_ offset =
      some sym) (dest : DestSymbol) :
    applyDeclared process abort sym dest =
      some (applyDataBlockSymbol process abort bytes mask (moduleIdx.setWidth 8) window.boundary
        (BitVec.ofNat 8 versionIndex) section_ offset (some 0) dest) := by
  rw [parseDataBlock, known, Option.map_some] at parsed
  obtain rfl := Option.some.inj parsed
  have narrow : (BitVec.ofNat 32 versionIndex).setWidth 8 = BitVec.ofNat 8 versionIndex :=
    BitVec.setWidth_ofNat_of_le (by decide) versionIndex
  rw [← narrow]
  rfl

/-- The switch, for a module that is loaded. -/
theorem applyDataBlockSymbol_boundary {process : Process} {index : BitVec 8}
    (there : process.gModules[index.toNat]? = some (some module)) (abort : Bool)
    (window : VersionWindow) (versionBoundary : BitVec 8) (bytes mask : List (BitVec 8)) (section_ : BitVec 8) (offset : U32) (out : Option Ptr)
    (dest : DestSymbol) :
    applyDataBlockSymbol process abort bytes mask index window.boundary versionBoundary section_ offset
        out dest =
      let searched := if abort ∧ process.search bytes mask (module.limited section_) = 0 then
          .error (dest.unresolved "DataBlock")
        else .ok (some (process.search bytes mask (module.limited section_) + offset.signExtend 64))
      match window with
      | .always => searched
      | .older _ => .ok out
      | .since _ => if module.mVersionIndex < versionBoundary.toNat then .ok out else searched := by
  rw [applyDataBlockSymbol, there]
  cases window with
  | always => simp [VersionWindow.boundary]
  | older _ =>
    by_cases above : module.mVersionIndex ≥ versionBoundary.toNat
    · simp [VersionWindow.boundary, above]
    · simp [VersionWindow.boundary, above, not_le.mp above]
  | since _ => simp [VersionWindow.boundary]

/-! ## Processes to tell windows apart -/

/-- A process that has loaded a module with an index and something else with all lower ones. -/
def probe (module : LoadedModule) (moduleIdx : U32) (other : Option LoadedModule) : Process where
  gModules := (List.range (moduleIdx.toNat + 1)).map fun i =>
    if i = moduleIdx.toNat then some module else other
  search := fun _ _ _ => 1
  lookupSymbol := fun _ _ _ => 0
  read32 := fun _ => none
  read64 := fun _ => none
  readable := fun _ => false

theorem probe_here (module : LoadedModule) (moduleIdx : U32) (other : Option LoadedModule) :
    (probe module moduleIdx other).gModules[moduleIdx.toNat]? = some (some module) := by
  simp [probe]

theorem probe_below (module : LoadedModule) {moduleIdx : U32} (other : Option LoadedModule) {i : ℕ}
    (below : i < moduleIdx.toNat) : (probe module moduleIdx other).gModules[i]? = some other := by
  simp [probe, List.getElem?_range (Nat.lt_succ_of_lt below), Nat.ne_of_lt below]

theorem addressed_of_respectsWindow {versionIndex : ℕ}
    (known : window.versionIndex (parseVersions listed) = some versionIndex)
    (respects : RespectsWindow listed module moduleIdx window abort) : moduleIdx.toNat < 256 := by
  by_contra high
  have below : (moduleIdx.setWidth 8).toNat < moduleIdx.toNat := by
    rw [BitVec.toNat_setWidth]
    omega
  obtain ⟨sym, parsed⟩ : ∃ sym, parseDataBlock (parseVersions listed) [] moduleIdx [] [] window 0 0 =
      some sym := ⟨_, by rw [parseDataBlock, known]; rfl⟩
  -- with no module at the lower index the lookup aborts
  have absent : applyDeclared (probe module moduleIdx none) abort sym (.murmur 0) = some (.error
      (.abort "UnknownModule with idx %d" [.number (moduleIdx.setWidth 8).toNat])) := by
    rw [applyDeclared_parseDataBlock known parsed, applyDataBlockSymbol, probe_below module none below]
  by_cases contains : window.Contains listed (module.version? (parseVersions listed))
  · have found := respects.inside contains (probe module moduleIdx none) sym (.murmur 0) [] [] [] 0 0
      (probe_here module moduleIdx none) parsed (show (1 : Ptr) ≠ 0 by decide)
    rw [absent] at found
    cases found
  · cases abort with
    | false =>
      have unresolved := respects.outside contains (probe module moduleIdx none) sym (.murmur 0) [] []
        [] 0 0 (probe_here module moduleIdx none) parsed
      rw [absent] at unresolved
      cases unresolved
    | true =>
      -- with a module of another version there the lookup is silent
      have silent : applyDeclared (probe module moduleIdx (some { module with mVersionIndex := -1 }))
          true sym (.murmur 0) = some (.ok (some 0)) := by
        rw [applyDeclared_parseDataBlock known parsed,
          applyDataBlockSymbol_boundary (probe_below module _ below)]
        cases window with
        | always => exact (contains trivial).elim
        | older _ => rfl
        | since _ =>
          have negative : (-1 : ℤ) < (BitVec.ofNat 8 versionIndex).toNat := by omega
          simp only [if_pos negative]
      obtain ⟨format, arguments, aborts⟩ := respects.outside contains _ sym (.murmur 0) [] [] [] 0 0
        (probe_here module moduleIdx (some { module with mVersionIndex := -1 })) parsed
      rw [silent] at aborts
      cases aborts

/-! ## Windows -/

/-- A lookup respects its window exactly when the comparison does. -/
theorem respectsWindow_iff {versionIndex : ℕ}
    (known : window.versionIndex (parseVersions listed) = some versionIndex) :
    RespectsWindow listed module moduleIdx window abort ↔
      Compared listed module moduleIdx window abort versionIndex := by
  have boundary : (BitVec.ofNat 8 versionIndex).toNat = versionIndex % 256 := BitVec.toNat_ofNat _ _
  constructor
  · intro respects
    have addressed := addressed_of_respectsWindow known respects
    refine ⟨addressed, ?_⟩
    have index : (moduleIdx.setWidth 8).toNat = moduleIdx.toNat := by
      rw [BitVec.toNat_setWidth, Nat.mod_eq_of_lt addressed]
    have here := probe_here module moduleIdx none
    obtain ⟨sym, parsed⟩ : ∃ sym, parseDataBlock (parseVersions listed) [] moduleIdx [] [] window 0 0 =
        some sym := ⟨_, by rw [parseDataBlock, known]; rfl⟩
    have result := applyDataBlockSymbol_boundary (index ▸ here) abort window
      (BitVec.ofNat 8 versionIndex) [] [] 0 0 (some 0) (.murmur 0)
    have found : (probe module moduleIdx none).search [] [] (module.limited 0) = 1 := rfl
    simp only [boundary, found, show (1 : Ptr) ≠ 0 by decide, and_false, if_false,
      show (1 : Ptr) + (0 : U32).signExtend 64 = 1 by decide] at result
    -- what the property says of this search
    have inside (contains) := (applyDeclared_parseDataBlock known parsed _).symm.trans
      (respects.inside contains _ sym (.murmur 0) [] [] [] 0 0 here parsed
        (show (1 : Ptr) ≠ 0 by decide))
    have outside (excluded) := respects.outside excluded _ sym (.murmur 0) [] [] [] 0 0 here parsed
    simp only [applyDeclared_parseDataBlock known parsed] at outside
    simp only [found, show (1 : Ptr) + (0 : U32).signExtend 64 = 1 by decide] at inside
    rw [result] at inside outside
    cases window with
    | always => trivial
    | older version =>
      dsimp only at inside outside
      have excluded : ¬ (VersionWindow.older version).Contains listed
          (module.version? (parseVersions listed)) := fun contains =>
        absurd (inside contains) (by decide)
      refine ⟨excluded, ?_⟩
      cases abort with
      | false => rfl
      | true =>
        obtain ⟨format, arguments, aborts⟩ := outside excluded
        cases aborts
    | since version =>
      by_cases below : module.mVersionIndex < (versionIndex % 256 : ℕ)
      · simp only [if_pos below] at inside outside
        have excluded : ¬ (VersionWindow.since version).Contains listed
            (module.version? (parseVersions listed)) := fun contains =>
          absurd (inside contains) (by decide)
        refine .inr ⟨excluded, below, ?_⟩
        cases abort with
        | false => rfl
        | true =>
          obtain ⟨format, arguments, aborts⟩ := outside excluded
          cases aborts
      · simp only [if_neg below] at inside outside
        refine .inl ⟨?_, not_lt.mp below⟩
        by_contra excluded
        cases abort with
        | false =>
          have unresolved := outside excluded
          simp only [Bool.false_eq_true, if_false] at unresolved
          exact absurd unresolved (by decide)
        | true =>
          obtain ⟨format, arguments, aborts⟩ := outside excluded
          cases aborts
  · rintro ⟨addressed, compared⟩
    have index : (moduleIdx.setWidth 8).toNat = moduleIdx.toNat := by
      rw [BitVec.toNat_setWidth, Nat.mod_eq_of_lt addressed]
    constructor
    · intro contains process sym dest name bytes mask section_ offset here parsed found
      rw [applyDeclared_parseDataBlock known parsed, applyDataBlockSymbol_boundary (index ▸ here),
        boundary]
      simp only [found, and_false, if_false]
      cases window with
      | always => rfl
      | older _ => exact (compared.1 contains).elim
      | since _ =>
        obtain ⟨-, above⟩ | ⟨absurd, -⟩ := compared
        · simp only [if_neg (not_lt.mpr above)]
        · exact (absurd contains).elim
    · intro outside process sym dest name bytes mask section_ offset here parsed
      rw [applyDeclared_parseDataBlock known parsed, applyDataBlockSymbol_boundary (index ▸ here),
        boundary]
      cases window with
      | always => exact (outside trivial).elim
      | older _ =>
        obtain ⟨-, rfl⟩ := compared
        rfl
      | since _ =>
        obtain ⟨absurd, -⟩ | ⟨-, below, rfl⟩ := compared
        · exact (outside absurd).elim
        · simp only [if_pos below, Bool.false_eq_true, if_false]

/-! ## Two versions, 100 and 110 -/

def listed100 : List (Name × BuildId) :=
  [([0x31, 0x30, 0x30], Vector.replicate 16 0), ([0x31, 0x31, 0x30], Vector.replicate 16 1)]

/-- A build of the first of them. -/
def loaded100 : LoadedModule :=
  { text := {}, rodata := {}, data := {}, mBuildId := some (Vector.replicate 16 0)
    mVersionIndex := 0 }

/-- `game<110` is never resolved for a build of 100. -/
theorem not_respectsWindow_older :
    ¬ RespectsWindow listed100 loaded100 0 (.older [0x31, 0x31, 0x30]) false := by
  rintro ⟨inside, -⟩
  have contains : (VersionWindow.older [0x31, 0x31, 0x30]).Contains listed100
      (loaded100.version? (parseVersions listed100)) := ⟨[0x31, 0x30, 0x30], by decide, by decide⟩
  have found := inside contains (probe loaded100 0 none) _ (.murmur 0) [] [] [] 0 0 rfl rfl
    (show (1 : Ptr) ≠ 0 by decide)
  revert found
  decide

/-- `game>100` is. -/
theorem respectsWindow_since :
    RespectsWindow listed100 loaded100 0 (.since [0x31, 0x30, 0x30]) true := by
  have contains : (VersionWindow.since [0x31, 0x30, 0x30]).Contains listed100
      (loaded100.version? (parseVersions listed100)) := ⟨[0x31, 0x30, 0x30], by decide, by decide⟩
  have known : (VersionWindow.since [0x31, 0x30, 0x30]).versionIndex (parseVersions listed100) =
      some 0 := by decide
  exact (respectsWindow_iff known).mpr ⟨by decide, .inl ⟨contains, by decide⟩⟩

end Hakkun.Sail
