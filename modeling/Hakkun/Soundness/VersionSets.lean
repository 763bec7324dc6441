import Hakkun.Model.Sail.Detail

/-! # The versions that a symbol is declared for

Sail writes a set of version indices as bits of a word that it computes as an `int`. The runtime
shifts the word by the index of the loaded version, which is the first with the build id of the
module and -1 if there is none. Both have to stay within the bits, and the index within the set.
-/

namespace Hakkun.Sail

/-! ## The emitted bits -/

theorem versionBit_getLsbD {ver k : ℕ} (small : ver < 32) (inside : k < 64) :
    ((1#32 <<< ver).signExtend 64).getLsbD k = true ↔ k = ver ∨ 32 ≤ k ∧ 31 = ver := by
  have one (i : ℕ) (low : i < 32) : (1#32 <<< ver).getLsbD i = decide (i = ver) := by
    rw [BitVec.getLsbD_shiftLeft, BitVec.getLsbD_one]
    by_cases below : i < ver
    · simp [below, Nat.ne_of_lt below]
    · simp [low, below, show i - ver = 0 ↔ i = ver by omega]
  rw [BitVec.getLsbD_signExtend]
  by_cases low : k < 32
  · simp only [inside, low, decide_true, Bool.true_and, if_true, one k low, decide_eq_true_iff]
    omega
  · rw [BitVec.msb_eq_getLsbD_last, one 31 (by decide)]
    simp only [inside, low, decide_true, Bool.true_and, if_false, decide_eq_true_iff]
    omega

/-- The bits after the loop: those before, one for each index, and all of the upper half for the
sign bit. -/
theorem versionsBitset_from (versionIndices : List ℕ) (before : U64) :
    (∀ versions, versionIndices.foldlM (fun versions ver => (versionBit ver).map (versions ||| ·))
      before = some versions → ∀ k < 64, (versions.getLsbD k = true ↔
        before.getLsbD k = true ∨ k ∈ versionIndices ∨ 32 ≤ k ∧ 31 ∈ versionIndices)) ∧
    ((versionIndices.foldlM (fun versions ver => (versionBit ver).map (versions ||| ·))
      before).isSome = true ↔ ∀ ver ∈ versionIndices, ver < 32) := by
  induction versionIndices generalizing before with
  | nil =>
    constructor
    · intro versions done k inside
      obtain rfl := Option.some.inj done
      simp
    · simp
  | cons ver rest ih =>
    rw [List.foldlM_cons, versionBit]
    by_cases small : ver < 32
    · rw [if_pos small]
      obtain ⟨bits, defined⟩ := ih (before ||| (1#32 <<< ver).signExtend 64)
      constructor
      · intro versions done k inside
        rw [bits versions done k inside, BitVec.getLsbD_or, Bool.or_eq_true,
          versionBit_getLsbD small inside, List.mem_cons, List.mem_cons]
        tauto
      · refine defined.trans ?_
        rw [List.forall_mem_cons, and_iff_right small]
    · rw [if_neg small]
      constructor
      · intro versions done
        cases done
      · refine iff_of_false Bool.false_ne_true fun all => small ?_
        exact all ver (List.mem_cons_self ..)

theorem versionsBitset_getLsbD {versionIndices : List ℕ} {versions : U64}
    (emitted : versionsBitset versionIndices = some versions) {k : ℕ} (inside : k < 64) :
    versions.getLsbD k = true ↔ k ∈ versionIndices ∨ 32 ≤ k ∧ 31 ∈ versionIndices := by
  rw [(versionsBitset_from versionIndices 0).1 versions emitted k inside]
  simp

theorem versionsBitset_isSome {versionIndices : List ℕ} :
    (versionsBitset versionIndices).isSome = true ↔ ∀ ver ∈ versionIndices, ver < 32 :=
  (versionsBitset_from versionIndices 0).2

/-! ## The loaded version -/

/-- An index is the first in a list of build ids that has one. -/
def IsFirst (buildIds : List BuildId) (buildId : BuildId) (k : ℕ) : Prop :=
  buildIds[k]? = some buildId ∧ ∀ j < k, buildIds[j]? ≠ some buildId

theorem matchVersion_spec (buildId : BuildId) (buildIds : List BuildId) (from_ : ℤ) :
    (∃ k : ℕ, IsFirst buildIds buildId k ∧ matchVersion buildId buildIds from_ = some (from_ + k)) ∨
    buildId ∉ buildIds ∧ matchVersion buildId buildIds from_ = none := by
  induction buildIds generalizing from_ with
  | nil => exact .inr ⟨List.not_mem_nil, rfl⟩
  | cons first rest ih =>
    rw [matchVersion]
    by_cases same : first = buildId
    · rw [if_pos same]
      exact .inl ⟨0, ⟨by simp [same], by simp⟩, by simp⟩
    · rw [if_neg same]
      rcases ih (from_ + 1) with ⟨k, ⟨here, before⟩, found⟩ | ⟨absent, none⟩
      · refine .inl ⟨k + 1, ⟨here, fun j earlier => ?_⟩, found.trans ?_⟩
        · cases j with
          | zero => simpa using same
          | succ j => exact before j (Nat.lt_of_succ_lt_succ earlier)
        · congr 1
          push_cast
          ring
      · exact .inr ⟨by simp [Ne.symm same, absent], none⟩

/-- The module that is loaded in place of an entry, after its version was looked for. -/
structure Loaded (gModules : List (Option LoadedModule)) (moduleIdx : U32) (buildIds : List BuildId)
    (module : LoadedModule) : Prop where
  unidentified : module.mVersionIndex = -1
  there : gModules[moduleIdx.toNat]? = some (some (loadVersion buildIds module))

variable {gModules : List (Option LoadedModule)} {moduleIdx : U32} {buildIds : List BuildId}
  {module : LoadedModule}

theorem shiftRight_and_one (versions : U64) (k : ℕ) :
    (versions >>> k &&& 1 != 0) = versions.getLsbD k := by
  have low : (versions >>> k).getLsbD 0 = versions.getLsbD k := by
    rw [BitVec.getLsbD_ushiftRight, Nat.add_zero]
  rw [show (1 : U64) = 1#64 from rfl, BitVec.and_one_eq_setWidth_ofBool_getLsbD, low]
  cases versions.getLsbD k <;> rfl

theorem isVersion_of_first (loaded : Loaded gModules moduleIdx buildIds module) {buildId : BuildId}
    {k : ℕ} (given : module.mBuildId = some buildId) (first : IsFirst buildIds buildId k)
    (versions : U64) : isVersion gModules versions moduleIdx =
      if k < 64 then .ok (versions.getLsbD k) else .error .undefined := by
  have index : (loadVersion buildIds module).mVersionIndex = k := by
    rw [loadVersion, given]
    rcases matchVersion_spec buildId buildIds 0 with ⟨j, ⟨here, before⟩, found⟩ | ⟨absent, -⟩
    · have same : j = k := by
        rcases Nat.lt_trichotomy j k with earlier | same | later
        · exact (first.2 j earlier here).elim
        · exact same
        · exact (before k later first.1).elim
      simp only [found, same, Int.zero_add]
    · exact (absent (List.mem_of_getElem? first.1)).elim
  rw [isVersion, loaded.there]
  simp only [index, Int.toNat_natCast, shiftRight_and_one]
  by_cases inside : k < 64
  · rw [if_pos inside, if_pos ⟨by omega, by omega⟩]
  · rw [if_neg inside, if_neg (by omega)]

theorem isVersion_of_absent (loaded : Loaded gModules moduleIdx buildIds module)
    (absent : ∀ buildId, module.mBuildId = some buildId → buildId ∉ buildIds) (versions : U64) :
    isVersion gModules versions moduleIdx = .error .undefined := by
  have unchanged : loadVersion buildIds module = module := by
    rw [loadVersion]
    cases given : module.mBuildId with
    | none => rfl
    | some buildId =>
      rcases matchVersion_spec buildId buildIds 0 with ⟨k, first, -⟩ | ⟨-, none⟩
      · exact (absent buildId given (List.mem_of_getElem? first.1)).elim
      · simp only [none]
  rw [isVersion, loaded.there, unchanged]
  simp only [loaded.unidentified]
  rfl

/-! ## Declared and loaded versions -/

/-- The emission of an immediate symbol, tested against the loaded modules, tells whether the build
id of the module is that of a version the symbol is declared for. -/
def SelectsVersions (sorted : List Symbol) (gModules : List (Option LoadedModule))
    (buildIds : List BuildId) (module : LoadedModule) (sym : Symbol) : Prop :=
  ∃ (entry : Entry) (versions : U64) (moduleIdx offset : U32),
    insertSymbol sorted sym = some entry ∧ entry.data = .immediate versions moduleIdx offset ∧
    isVersion gModules versions moduleIdx =
      .ok (decide (∃ ver ∈ sym.versionIndices, module.mBuildId.isSome ∧
        buildIds[ver]? = module.mBuildId))

/-- The build id is known, the first version that has it is one of the first 64, and it is declared
if any version with that build id is; all declared versions are of the first 32, and the one that
sets the sign bit is not declared for a later version to be loaded. -/
structure Selectable (buildIds : List BuildId) (versionIndices : List ℕ) (buildId : BuildId) (k : ℕ) :
    Prop where
  first : IsFirst buildIds buildId k
  bounded : k < 64
  small : ∀ ver ∈ versionIndices, ver < 32
  unsigned : 31 ∈ versionIndices → k < 32
  canonical : (∃ ver ∈ versionIndices, buildIds[ver]? = some buildId) → k ∈ versionIndices

/-- Versions are told apart exactly where the index and the bits have room for them and no two of
them share a build id in a way that matters. -/
theorem selectsVersions_iff (sorted : List Symbol) {sym : Symbol} {offset : U32}
    (immediate : sym.data = .immediate moduleIdx offset)
    (loaded : Loaded gModules moduleIdx buildIds module) :
    SelectsVersions sorted gModules buildIds module sym ↔
      ∃ buildId k, module.mBuildId = some buildId ∧
        Selectable buildIds sym.versionIndices buildId k := by
  have emission (versions : U64) : versionsBitset sym.versionIndices = some versions →
      insertSymbol sorted sym = some ⟨sym.hash, if sym.useCache then 0 else 1,
        .immediate versions moduleIdx offset⟩ := by
    intro emitted
    simp only [insertSymbol, immediate, emitted, Option.map_some]
  constructor
  · rintro ⟨entry, versions, moduleIdx', offset', inserted, data, tested⟩
    simp only [insertSymbol, immediate, Option.map_eq_some_iff] at inserted
    obtain ⟨versions', emitted, rfl⟩ := inserted
    obtain ⟨rfl, rfl, rfl⟩ := EntryData.immediate.inj data
    cases given : module.mBuildId with
    | none =>
      rw [isVersion_of_absent loaded (by simp [given])] at tested
      cases tested
    | some buildId =>
      rcases matchVersion_spec buildId buildIds 0 with ⟨k, first, -⟩ | ⟨absent, -⟩
      · rw [isVersion_of_first loaded given first] at tested
        split_ifs at tested with bounded
        have small := versionsBitset_isSome.mp (Option.isSome_iff_exists.mpr ⟨_, emitted⟩)
        have bits := versionsBitset_getLsbD emitted bounded
        rw [Except.ok.inj tested, decide_eq_true_iff, given] at bits
        refine ⟨buildId, k, rfl, first, bounded, small, fun sign => ?_, fun ⟨ver, listed, same⟩ => ?_⟩
        · by_contra high
          obtain ⟨ver, listed, -, same⟩ := bits.mpr (.inr ⟨by omega, sign⟩)
          have := small ver listed
          exact first.2 ver (by omega) same
        · rcases bits.mp ⟨ver, listed, rfl, same⟩ with listed | ⟨high, -⟩
          · exact listed
          · have := small ver listed
            exact (first.2 ver (by omega) same).elim
      · rw [isVersion_of_absent loaded fun other same =>
          Option.some.inj (given.symm.trans same) ▸ absent] at tested
        cases tested
  · rintro ⟨buildId, k, given, first, bounded, small, unsigned, canonical⟩
    obtain ⟨versions, emitted⟩ := Option.isSome_iff_exists.mp (versionsBitset_isSome.mpr small)
    refine ⟨_, versions, moduleIdx, offset, emission versions emitted, rfl, ?_⟩
    rw [isVersion_of_first loaded given first, if_pos bounded, given]
    congr 1
    rw [Bool.eq_iff_iff, versionsBitset_getLsbD emitted bounded, decide_eq_true_iff]
    constructor
    · rintro (listed | ⟨high, sign⟩)
      · exact ⟨k, listed, rfl, first.1⟩
      · exact absurd (unsigned sign) (by omega)
    · rintro ⟨ver, listed, -, same⟩
      exact .inl (canonical ⟨ver, listed, same⟩)

section Shared

/-- A build id that two versions have, as versions 100 and 101 of a library do that did not change. -/
def sharedBuildId : BuildId := Vector.replicate 16 0xae

def sharedModule : LoadedModule := { text := {}, rodata := {}, data := {}, mBuildId := sharedBuildId }

/-- A symbol of the first module. -/
def declaredFor (versionIndices : List ℕ) : Symbol := ⟨[0x61], .immediate 0 0x10, versionIndices, true⟩

theorem loaded_sharedModule : Loaded
    [some (loadVersion [sharedBuildId, sharedBuildId] sharedModule)] 0
    [sharedBuildId, sharedBuildId] sharedModule :=
  ⟨rfl, rfl⟩

/-- Declared for the second of two versions with one build id, a symbol does not match it. -/
theorem not_selectsVersions_shared : ¬ SelectsVersions [declaredFor [1]]
    [some (loadVersion [sharedBuildId, sharedBuildId] sharedModule)]
    [sharedBuildId, sharedBuildId] sharedModule (declaredFor [1]) := by
  rintro ⟨entry, versions, moduleIdx, offset, inserted, data, tested⟩
  obtain rfl := Option.some.inj inserted
  obtain ⟨rfl, rfl, rfl⟩ := EntryData.immediate.inj data
  revert tested
  decide

/-- Declared for the first of them, it does. -/
theorem selectsVersions_shared : SelectsVersions [declaredFor [0]]
    [some (loadVersion [sharedBuildId, sharedBuildId] sharedModule)]
    [sharedBuildId, sharedBuildId] sharedModule (declaredFor [0]) :=
  (selectsVersions_iff [declaredFor [0]] rfl loaded_sharedModule).mpr
    ⟨sharedBuildId, 0, rfl, ⟨rfl, by decide⟩, by decide, by decide, by decide, by decide⟩

end Shared

end Hakkun.Sail
