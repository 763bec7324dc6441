import Hakkun.Soundness.VersionLoading
import Mathlib.Data.Nat.Find

/-! # The round trip of the version tables

The tables are emitted for a version list, and the loader walks them with the modules that are
loaded. Whether it recovers the list, and finds each entry that some module matches, is a condition
on the list and the modules: the index of a module is lost, bit 16 of an offset is taken for the
mark of an index, entries without versions are skipped, and a module that several entries find keeps
the index of the last.
-/

namespace Hakkun.Sail

variable {entries : List TableEntry} {loaded : List VersionedModule} {table : List (BitVec 8)}

/-! ## Runs -/

/-- The search for an entry among modules that no entry was searched in. -/
def search (loaded : List VersionedModule) (entry : TableEntry) :
    Except Fault (Option ℕ × Option ℤ) :=
  match entry.versions with
  | none => .ok (none, none)
  | some versions => searchModules entry versions loaded 0 none

/-- The state after the search for an entry. -/
structure Stored (state : LoaderState) (i : ℕ) (gModule : Option ℕ) (found : Option ℤ)
    (state' : LoaderState) : Prop where
  gModules : state'.gModules = state.gModules.set i gModule
  same : state'.modules.map identity = state.modules.map identity
  version : ∀ j k module, gModule = some j → found = some k → state.modules[j]? = some module →
    ∃ module', state'.modules[j]? = some module' ∧ module'.mVersionIndex = k
  others : ∀ j, (∀ k, ¬ (gModule = some j ∧ found = some k)) →
    state'.modules[j]? = state.modules[j]?

theorem stored_store {state : LoaderState} {i : ℕ} {versions : List (BuildId × Name)}
    {gModule : Option ℕ} {found : Option ℤ} :
    Stored state i gModule found (state.store i versions gModule found) := by
  refine ⟨rfl, ?_, ?_, ?_⟩
  · cases gModule with
    | none => rfl
    | some moduleIndex =>
      cases found with
      | none => rfl
      | some versionIndex =>
        refine List.ext_getElem? fun j => ?_
        change ((state.modules.modify moduleIndex _).map identity)[j]? = _
        rw [List.getElem?_map, List.getElem?_map, List.getElem?_modify]
        by_cases here : moduleIndex = j
        · cases state.modules[j]? <;> simp [here, identity, VersionedModule.setVersion]
        · simp [here]
  · rintro j k module rfl rfl there
    refine ⟨module.setVersion k ((versions.map Prod.snd).getD k.toNat []), ?_, rfl⟩
    change (state.modules.modify j _)[j]? = _
    rw [List.getElem?_modify_eq, there]
    rfl
  · intro j other
    cases gModule with
    | none => rfl
    | some moduleIndex =>
      cases found with
      | none => rfl
      | some versionIndex =>
        have apart : moduleIndex ≠ j := fun same => other versionIndex ⟨by rw [same], rfl⟩
        change (state.modules.modify moduleIndex _)[j]? = _
        rw [List.getElem?_modify_ne _ _ apart]

theorem loadEntry_of_search {state : LoaderState} {i : ℕ} {entry : TableEntry}
    (same : state.modules.map identity = loaded.map identity)
    (unset : state.gModules[i]? = some none) {gModule : Option ℕ} {found : Option ℤ}
    (searched : search loaded entry = .ok (gModule, found)) :
    ∃ state', loadEntry state i entry = .ok state' ∧ Stored state i gModule found state' := by
  rw [search] at searched
  rw [loadEntry]
  cases listed : entry.versions with
  | none =>
    rw [listed] at searched
    obtain ⟨rfl, rfl⟩ := Prod.mk.inj (Except.ok.inj searched)
    refine ⟨state, rfl, ?_, rfl, ?_, fun _ _ => rfl⟩
    · obtain ⟨bound, here⟩ := List.getElem?_eq_some_iff.mp unset
      conv_lhs => rw [← List.set_getElem_self bound, here]
    · intro j k module absurd_
      cases absurd_
  | some versions =>
    rw [listed] at searched
    have own : searchModules entry versions state.modules 0 (state.gModules.getD i none) =
        .ok (gModule, found) := by
      rw [List.getD_eq_getElem?_getD, unset]
      exact (searchModules_congr same).trans searched
    simp only [own]
    exact ⟨_, rfl, stored_store⟩

theorem loadEntry_of_error {state : LoaderState} {i : ℕ} {entry : TableEntry}
    (same : state.modules.map identity = loaded.map identity)
    (unset : state.gModules[i]? = some none) {fault : Fault}
    (searched : search loaded entry = .error fault) :
    loadEntry state i entry = .error fault := by
  rw [search] at searched
  rw [loadEntry]
  cases listed : entry.versions with
  | none =>
    rw [listed] at searched
    cases searched
  | some versions =>
    rw [listed] at searched
    have own : searchModules entry versions state.modules 0 (state.gModules.getD i none) =
        .error fault := by
      rw [List.getD_eq_getElem?_getD, unset]
      exact (searchModules_congr same).trans searched
    simp only [own]
    rfl

/-- The module and the version that an entry finds. -/
def Finds (entries : List TableEntry) (loaded : List VersionedModule) (i j : ℕ) (k : ℤ) : Prop :=
  ∃ entry, entries[i]? = some entry ∧ search loaded entry = .ok (some j, some k)

/-- What is loaded after some entries. -/
structure Progress (entries : List TableEntry) (loaded : List VersionedModule) (n : ℕ)
    (state : LoaderState) : Prop where
  searched : ∀ i < n, ∀ entry, entries[i]? = some entry →
    ∃ gModule found, search loaded entry = .ok (gModule, found) ∧
      state.gModules[i]? = some gModule
  unset : ∀ i, n ≤ i → i < entries.length → state.gModules[i]? = some none
  same : state.modules.map identity = loaded.map identity
  version : ∀ i < n, ∀ j k, Finds entries loaded i j k →
    (∀ i', i < i' → i' < n → ∀ k', ¬ Finds entries loaded i' j k') →
      ∃ module, state.modules[j]? = some module ∧ module.mVersionIndex = k

/-- The state before anything is loaded. -/
def unloaded (entries : List TableEntry) (loaded : List VersionedModule) : LoaderState :=
  ⟨List.replicate entries.length none, loaded⟩

theorem progress_zero : Progress entries loaded 0 (unloaded entries loaded) where
  searched _ below := absurd below (Nat.not_lt_zero _)
  unset _ _ bound := List.getElem?_replicate_of_lt bound
  same := rfl
  version _ below := absurd below (Nat.not_lt_zero _)

/-- A module that is found is loaded. -/
theorem exists_of_finds {i j : ℕ} {k : ℤ} (finds : Finds entries loaded i j k) :
    ∃ module, loaded[j]? = some module := by
  obtain ⟨entry, -, searched⟩ := finds
  rw [search] at searched
  split at searched
  · cases searched
  · rcases searchModules_spec searched with
      ⟨j', module, -, -, -, there, -, -, result, -⟩ | ⟨-, found, -⟩
    · rw [Nat.zero_add] at result
      exact ⟨module, Option.some.inj result ▸ there⟩
    · cases found

theorem progress_succ {n : ℕ} {state state' : LoaderState} {entry : TableEntry}
    {gModule : Option ℕ} {found : Option ℤ} (progress : Progress entries loaded n state)
    (here : entries[n]? = some entry) (searched : search loaded entry = .ok (gModule, found))
    (stored : Stored state n gModule found state') : Progress entries loaded (n + 1) state' := by
  have bound : n < entries.length := (List.getElem?_eq_some_iff.mp here).1
  have written : state'.gModules[n]? = some gModule := by
    obtain ⟨room, -⟩ := List.getElem?_eq_some_iff.mp (progress.unset n (Nat.le_refl n) bound)
    rw [stored.gModules, List.getElem?_set_self room]
  have kept (i : ℕ) (other : n ≠ i) : state'.gModules[i]? = state.gModules[i]? := by
    rw [stored.gModules, List.getElem?_set_ne other]
  refine ⟨?_, ?_, stored.same.trans progress.same, ?_⟩
  · intro i below own there
    rcases Nat.lt_succ_iff_lt_or_eq.mp below with below | rfl
    · obtain ⟨gModule, found, searched, set⟩ := progress.searched i below own there
      exact ⟨gModule, found, searched, (kept i (Nat.ne_of_gt below)).trans set⟩
    · rw [here] at there
      obtain rfl := Option.some.inj there
      exact ⟨gModule, found, searched, written⟩
  · intro i above inside
    rw [kept i (Nat.ne_of_lt above)]
    exact progress.unset i (Nat.le_of_succ_le above) inside
  · intro i below j k finds last
    rcases Nat.lt_succ_iff_lt_or_eq.mp below with below | rfl
    · obtain ⟨module, there, index⟩ := progress.version i below j k finds fun i' above inside =>
        last i' above (Nat.lt_succ_of_lt inside)
      refine ⟨module, ?_, index⟩
      rw [stored.others j fun k' ⟨result, own⟩ => ?_, there]
      rw [result, own] at searched
      exact last n below (Nat.lt_succ_self n) k' ⟨entry, here, searched⟩
    · obtain ⟨own, there, result⟩ := id finds
      rw [here] at there
      obtain rfl := Option.some.inj there
      rw [searched] at result
      obtain ⟨rfl, rfl⟩ := Prod.mk.inj (Except.ok.inj result)
      obtain ⟨module, present⟩ := exists_of_finds finds
      have listed : (state.modules.map identity)[j]? = some (identity module) := by
        rw [progress.same, List.getElem?_map, present]
        rfl
      rw [List.getElem?_map] at listed
      obtain ⟨before, present, -⟩ := Option.map_eq_some_iff.mp listed
      exact stored.version j k before rfl rfl present

/-- The loader reads the entries from its tables. -/
def ReadsEntries (table : List (BitVec 8)) (entries : List TableEntry) : Prop :=
  ∀ i entry, entries[i]? = some entry → readEntry table i = some entry

theorem loadVersions_succ {n : ℕ} {state : LoaderState} {entry : TableEntry}
    (reads : ReadsEntries table entries) (here : entries[n]? = some entry) :
    loadVersions table (n + 1) state =
      (loadVersions table n state).bind fun state => loadEntry state n entry := by
  have turn (state : LoaderState) : loadTurn table state n = loadEntry state n entry := by
    rw [loadTurn, reads n entry here]
  rw [loadVersions, List.range_succ, List.foldlM_append]
  change (loadVersions table n state).bind (fun state => (loadTurn table state n).bind .ok) = _
  congr 1
  funext state
  rw [turn]
  cases loadEntry state n entry <;> rfl

/-- A run ends if the searches do, and it leaves what they find. -/
theorem loadVersions_spec (reads : ReadsEntries table entries) {n : ℕ}
    (bound : n ≤ entries.length) :
    ((∃ state, loadVersions table n (unloaded entries loaded) = .ok state) ↔
      ∀ i < n, ∀ entry, entries[i]? = some entry → ∃ result, search loaded entry = .ok result) ∧
    ∀ state, loadVersions table n (unloaded entries loaded) = .ok state →
      Progress entries loaded n state := by
  induction n with
  | zero =>
    refine ⟨iff_of_true ⟨_, rfl⟩ fun i below => absurd below (Nat.not_lt_zero i), ?_⟩
    intro state done
    obtain rfl := Except.ok.inj done
    exact progress_zero
  | succ n ih =>
    obtain ⟨ends, leaves⟩ := ih (Nat.le_of_succ_le bound)
    have here : entries[n]? = some entries[n] := List.getElem?_eq_getElem bound
    rw [loadVersions_succ reads here]
    cases run : loadVersions table n (unloaded entries loaded) with
    | error fault =>
      rw [run] at ends
      have stuck : ¬ ∀ i < n, ∀ entry, entries[i]? = some entry →
          ∃ result, search loaded entry = .ok result := fun all => by
        obtain ⟨state, done⟩ := ends.mpr all
        cases done
      refine ⟨iff_of_false (fun ⟨state, done⟩ => by cases done) fun all => stuck ?_, ?_⟩
      · exact fun i below => all i (Nat.lt_succ_of_lt below)
      · intro state done
        cases done
    | ok before =>
      have progress := leaves before run
      have unset := progress.unset n (Nat.le_refl n) bound
      have earlier := ends.mp ⟨before, run⟩
      cases searched : search loaded entries[n] with
      | error fault =>
        have failed := loadEntry_of_error progress.same unset searched
        change ((∃ state, loadEntry before n entries[n] = .ok state) ↔ _) ∧
          ∀ state, loadEntry before n entries[n] = .ok state → _
        rw [failed]
        refine ⟨iff_of_false (fun ⟨state, done⟩ => by cases done) fun all => ?_, ?_⟩
        · obtain ⟨result, own⟩ := all n (Nat.lt_succ_self n) entries[n] here
          rw [searched] at own
          cases own
        · intro state done
          cases done
      | ok result =>
        obtain ⟨gModule, found⟩ := result
        obtain ⟨state', done, stored⟩ := loadEntry_of_search progress.same unset searched
        change ((∃ state, loadEntry before n entries[n] = .ok state) ↔ _) ∧
          ∀ state, loadEntry before n entries[n] = .ok state → _
        rw [done]
        refine ⟨iff_of_true ⟨state', rfl⟩ fun i below entry there => ?_, ?_⟩
        · rcases Nat.lt_succ_iff_lt_or_eq.mp below with below | rfl
          · exact earlier i below entry there
          · rw [here] at there
            obtain rfl := Option.some.inj there
            exact ⟨_, searched⟩
        · intro state same
          obtain rfl := Except.ok.inj same
          exact progress_succ progress here searched stored

/-! ## The list and the modules -/

section Lists

variable {isSymbolChar : BitVec 8 → Bool} {versionList : VersionList}

/-- The build ids of a module, in the order of its versions. -/
def VersionListModule.buildIds (module : VersionListModule) : List BuildId :=
  module.versions.map Prod.snd

/-- What the loader is to leave for a module of the list. -/
structure SetFor (module : VersionListModule) (loaded : List VersionedModule) (i : ℕ)
    (final : LoaderState) : Prop where
  matched : ∀ j other, loaded[j]? = some other →
    MatchesEntry module.entry j other ∨ Identified module.buildIds other →
      ∃ j, final.gModules[i]? = some (some j)
  version : (∃ other ∈ loaded, Identified module.buildIds other) →
    ∃ (j : ℕ) (other : VersionedModule) (id : BuildId) (k : ℕ),
      final.gModules[i]? = some (some j) ∧ loaded[j]? = some other ∧ other.mBuildId = some id ∧
        module.buildIds[k]? = some id ∧
          ∃ set, final.modules[j]? = some set ∧ set.mVersionIndex = k

/-- The tables are emitted, and a loader that starts with no module found recovers each module of
the list from them, with its versions in the order of `getVersionIndex`, and sets what is
matched. -/
def RoundTrips (isSymbolChar : BitVec 8 → Bool) (versionList : VersionList)
    (loaded : List VersionedModule) : Prop :=
  ∃ image count final, assembleVersions isSymbolChar versionList = some image ∧
    gNumModules versionList = some count ∧
    (∀ i pair, versionList[i]? = some pair → readEntry image i = some pair.2.entry) ∧
    (∀ pair ∈ versionList, ∀ version k, getVersionIndex pair.2.versions version = some k →
      ∃ id, pair.2.versions[k]? = some (version, id) ∧
        (pair.2.entry.versions.getD [])[k]? = some (id, shortName version)) ∧
    loadVersions image count.toNat ⟨List.replicate versionList.length none, loaded⟩ = .ok final ∧
    ∀ i pair, versionList[i]? = some pair → SetFor pair.2 loaded i final

/-- What has to hold of the list. -/
structure Representable (isSymbolChar : BitVec 8 → Bool) (versionList : VersionList) : Prop where
  count : versionList.length < 2 ^ 32
  unindexed : ∀ pair ∈ versionList, pair.2.index = -1
  recordable : ∀ pair ∈ versionList, Recordable isSymbolChar pair.1 pair.2
  near : ∀ before pair after, versionList = before ++ pair :: after → pair.2.versions ≠ [] →
    versionsAt versionList.length before < 2 ^ 32
  named : ∀ before pair after, versionList = before ++ pair :: after → pair.2.mod0Name ≠ [] →
    nameAt versionList.length before pair.2 < 2 ^ 32 ∧
      (nameAt versionList.length before pair.2).testBit 16 = false

/-- What has to hold of the list and the loaded modules: names are found up to the first module that
is identified, a module without versions is not matched by its name, and where a module is found for
several entries, the last has its build id at an index at which the others have it too. -/
structure Settles (versionList : VersionList) (loaded : List VersionedModule) : Prop where
  named : ∀ pair ∈ versionList, pair.2.versions ≠ [] → Named pair.2.buildIds loaded
  listed : ∀ pair ∈ versionList, pair.2.versions = [] → ∀ j other, loaded[j]? = some other →
    ¬ MatchesEntry pair.2.entry j other
  agreeing : ∀ pair ∈ versionList, ∀ (i' : ℕ) (pair' : Name × VersionListModule),
    versionList[i']? = some pair' → ∀ (j : ℕ) (other : VersionedModule) (id : BuildId),
    loaded[j]? = some other → other.mBuildId = some id →
    FirstIdentified pair.2.buildIds loaded j → FirstIdentified pair'.2.buildIds loaded j →
    (∀ (l : ℕ) (last : Name × VersionListModule), i' < l → versionList[l]? = some last →
      ¬ FirstIdentified last.2.buildIds loaded j) →
    ∀ k, IsFirst pair'.2.buildIds id k → pair.2.buildIds[k]? = some id

/-! ## The condition on the list -/

theorem gNumModules_eq (versionList : VersionList) : gNumModules versionList =
    if versionList.length < 2 ^ 32 then some (BitVec.ofNat 64 versionList.length) else none := by
  rw [gNumModules, number_hexLiteral]
  split
  · case isTrue small =>
    rw [Option.map_some, BitVec.setWidth_ofNat_of_le_of_lt (by decide) small]
  · rfl

theorem representable_iff (distinct : (versionList.map Prod.fst).Nodup) :
    Representable isSymbolChar versionList ↔ versionList.length < 2 ^ 32 ∧
      ∃ image, assembleVersions isSymbolChar versionList = some image ∧
        ∀ i pair, versionList[i]? = some pair → readEntry image i = some pair.2.entry := by
  constructor
  · intro representable
    refine ⟨representable.count, ?_⟩
    obtain ⟨image, assembled⟩ :
        ∃ image, assembleVersions isSymbolChar versionList = some image := by
      refine (exists_image distinct).mpr fun before name module after parts => ?_
      have member : (name, module) ∈ versionList := by rw [parts]; simp
      refine ⟨representable.recordable _ member, representable.near _ _ _ parts, ?_⟩
      have unindexed : module.index = -1 := representable.unindexed _ member
      have word (value : U32) :
          NameWord module (nameAt versionList.length before module) value ↔ _ :=
        iff_of_eq (if_neg (not_not.mpr unindexed))
      by_cases unnamed : module.mod0Name = []
      · exact ⟨0, (word 0).mpr (by rw [if_pos unnamed])⟩
      · refine ⟨BitVec.ofNat 32 (nameAt versionList.length before module), (word _).mpr ?_⟩
        rw [if_neg unnamed]
        exact ⟨(representable.named _ _ _ parts unnamed).1, rfl⟩
    refine ⟨image, assembled, fun i pair there => ?_⟩
    obtain ⟨bound, here⟩ := List.getElem?_eq_some_iff.mp there
    have parts : versionList = versionList.take i ++ pair :: versionList.drop (i + 1) := by
      rw [← here, List.getElem_cons_drop, List.take_append_drop]
    have size : (versionList.take i).length = i := List.length_take_of_le (Nat.le_of_lt bound)
    have named := representable.named _ _ _ parts
    have unindexed := representable.unindexed pair (List.mem_of_getElem? there)
    rw [parts] at distinct assembled
    have read := (readEntry_iff distinct assembled).mpr
      ⟨unindexed, fun some => by rw [← parts]; exact (named some).2⟩
    rwa [size] at read
  · rintro ⟨count, image, assembled, reads⟩
    have each := (exists_image distinct).mp ⟨image, assembled⟩
    have own {before after : VersionList} {pair : Name × VersionListModule}
        (parts : versionList = before ++ pair :: after) :
        pair.2.index = -1 ∧ (pair.2.mod0Name ≠ [] →
          (nameAt versionList.length before pair.2).testBit 16 = false) := by
      have read := reads before.length pair (by rw [parts]; simp)
      subst parts
      exact (readEntry_iff distinct assembled).mp read
    refine ⟨count, ?_, ?_, fun before pair after parts => (each _ _ _ _ parts).near, ?_⟩
    · intro pair member
      obtain ⟨before, after, parts⟩ := List.append_of_mem member
      exact (own parts).1
    · intro pair member
      obtain ⟨before, after, parts⟩ := List.append_of_mem member
      exact (each _ _ _ _ parts).recordable
    · intro before pair after parts some
      obtain ⟨unindexed, clear⟩ := own parts
      obtain ⟨word, named⟩ := (each _ _ _ _ parts).named
      rw [NameWord, if_neg (not_not.mpr unindexed), if_neg some] at named
      exact ⟨named.1, clear some⟩

/-! ## The condition on the modules -/

theorem firstIdentified_unique {buildIds : List BuildId} {j j' : ℕ}
    (first : FirstIdentified buildIds loaded j) (other : FirstIdentified buildIds loaded j') :
    j = j' := by
  rcases Nat.lt_trichotomy j j' with below | same | above
  · obtain ⟨⟨module, there, identified⟩, -⟩ := first
    exact absurd identified (other.2 j below module there)
  · exact same
  · obtain ⟨⟨module, there, identified⟩, -⟩ := other
    exact absurd identified (first.2 j' above module there)

theorem isFirst_unique {buildIds : List BuildId} {id : BuildId} {k k' : ℕ}
    (first : IsFirst buildIds id k) (other : IsFirst buildIds id k') : k = k' := by
  rcases Nat.lt_trichotomy k k' with below | same | above
  · exact absurd first.1 (other.2 k below)
  · exact same
  · exact absurd other.1 (first.2 k' above)

/-- What the search for a module of the list ends with. -/
theorem search_spec {module : VersionListModule} {gModule : Option ℕ} {found : Option ℤ}
    (searched : search loaded module.entry = .ok (gModule, found)) :
    (∃ j other id k, FirstIdentified module.buildIds loaded j ∧ loaded[j]? = some other ∧
      other.mBuildId = some id ∧ IsFirst module.buildIds id k ∧
        gModule = some j ∧ found = some (k : ℤ)) ∨
    (∀ other ∈ loaded, ¬ Identified module.buildIds other) ∧ found = none ∧
      (gModule ≠ none ↔ module.versions ≠ [] ∧
        ∃ j other, loaded[j]? = some other ∧ MatchesEntry module.entry j other) := by
  rw [search] at searched
  by_cases none : module.versions = []
  · have unlisted : module.entry.versions = Option.none := if_pos none
    have ids : module.buildIds = [] := by rw [VersionListModule.buildIds, none, List.map_nil]
    rw [unlisted] at searched
    obtain ⟨rfl, rfl⟩ := Prod.mk.inj (Except.ok.inj searched)
    refine .inr ⟨fun other _ ⟨id, member, _⟩ => ?_, rfl, iff_of_false (fun some_ => some_ rfl) ?_⟩
    · rw [ids] at member
      cases member
    · exact fun ⟨some_, _⟩ => some_ none
  · have listed : module.entry.versions =
        some (module.versions.map fun pair => (pair.2, shortName pair.1)) := if_neg none
    have ids : (module.versions.map fun pair => (pair.2, shortName pair.1)).map Prod.fst =
        module.buildIds := by
      rw [List.map_map]
      rfl
    rw [listed] at searched
    have spec := searchModules_spec searched
    rw [ids] at spec
    simp only [Nat.zero_add] at spec
    refine spec.imp_right fun ⟨unidentified, missing, matched⟩ => ⟨unidentified, missing, ?_⟩
    rw [matched, and_iff_right none]
    exact or_iff_left fun some => some rfl

theorem exists_search {module : VersionListModule} :
    (∃ result, search loaded module.entry = .ok result) ↔
      (module.versions ≠ [] → Named module.buildIds loaded) := by
  rw [search]
  by_cases none : module.versions = []
  · have unlisted : module.entry.versions = Option.none := if_pos none
    rw [unlisted]
    exact iff_of_true ⟨_, rfl⟩ fun some => absurd none some
  · have listed : module.entry.versions =
        some (module.versions.map fun pair => (pair.2, shortName pair.1)) := if_neg none
    have ids : (module.versions.map fun pair => (pair.2, shortName pair.1)).map Prod.fst =
        module.buildIds := by
      rw [List.map_map]
      rfl
    rw [listed, imp_iff_right none, ← ids]
    exact exists_searchModules

/-- The entries that the tables have for a list. -/
def entriesOf (versionList : VersionList) : List TableEntry :=
  versionList.map fun pair => pair.2.entry

theorem getElem?_entriesOf {i : ℕ} {entry : TableEntry}
    (there : (entriesOf versionList)[i]? = some entry) :
    ∃ pair, versionList[i]? = some pair ∧ pair.2.entry = entry := by
  rw [entriesOf, List.getElem?_map] at there
  exact Option.map_eq_some_iff.mp there

theorem firstIdentified_of_finds {i j : ℕ} {k : ℤ}
    (finds : Finds (entriesOf versionList) loaded i j k) :
    ∃ pair, versionList[i]? = some pair ∧ FirstIdentified pair.2.buildIds loaded j := by
  obtain ⟨entry, there, searched⟩ := finds
  obtain ⟨pair, here, rfl⟩ := getElem?_entriesOf there
  refine ⟨pair, here, ?_⟩
  rcases search_spec searched with ⟨j', -, -, -, first, -, -, -, same, -⟩ | ⟨-, missing, -⟩
  · exact Option.some.inj same ▸ first
  · cases missing

/-- An index with a property has a last one, if there is a bound. -/
theorem exists_last {P : ℕ → Prop} {bound i : ℕ} (inside : ∀ i, P i → i < bound)
    (here : P i) : ∃ last, P last ∧ ∀ l, last < l → ¬ P l := by
  classical
  refine ⟨Nat.findGreatest P bound,
    Nat.findGreatest_spec (Nat.le_of_lt (inside i here)) here, fun l above there => ?_⟩
  exact Nat.findGreatest_is_greatest above (Nat.le_of_lt (inside l there)) there

/-- What the last entry leaves of a module that it finds. -/
theorem version_of_last {final : LoaderState}
    (progress : Progress (entriesOf versionList) loaded (entriesOf versionList).length final)
    {i j : ℕ} {pair : Name × VersionListModule} (there : versionList[i]? = some pair)
    (first : FirstIdentified pair.2.buildIds loaded j)
    (last : ∀ (l : ℕ) (other : Name × VersionListModule), i < l → versionList[l]? = some other →
      ¬ FirstIdentified other.2.buildIds loaded j) :
    ∃ other id k, loaded[j]? = some other ∧ other.mBuildId = some id ∧
      IsFirst pair.2.buildIds id k ∧
        ∃ set, final.modules[j]? = some set ∧ set.mVersionIndex = k := by
  have bound : i < (entriesOf versionList).length := by
    rw [entriesOf, List.length_map]
    exact (List.getElem?_eq_some_iff.mp there).1
  have entry : (entriesOf versionList)[i]? = some pair.2.entry := by
    rw [entriesOf, List.getElem?_map, there]
    rfl
  obtain ⟨gModule, found, searched, -⟩ := progress.searched i bound _ entry
  rcases search_spec searched with
    ⟨j', other, id, k, own, here, given, index, rfl, rfl⟩ | ⟨unidentified, -, -⟩
  · obtain rfl := firstIdentified_unique first own
    refine ⟨other, id, k, here, given, index, ?_⟩
    refine progress.version i bound j k ⟨_, entry, searched⟩ fun l above _ k' finds => ?_
    obtain ⟨later, present, found⟩ := firstIdentified_of_finds finds
    exact last l later above present found
  · obtain ⟨⟨module, present, identified⟩, -⟩ := first
    exact absurd identified (unidentified module (List.mem_of_getElem? present))

theorem settles_iff (reads : ReadsEntries table (entriesOf versionList)) :
    Settles versionList loaded ↔
      ∃ final, loadVersions table (entriesOf versionList).length
          (unloaded (entriesOf versionList) loaded) = .ok final ∧
        ∀ i pair, versionList[i]? = some pair → SetFor pair.2 loaded i final := by
  obtain ⟨ends, leaves⟩ := @loadVersions_spec _ loaded _ reads _ (Nat.le_refl _)
  have entry {i : ℕ} {pair : Name × VersionListModule} (there : versionList[i]? = some pair) :
      (entriesOf versionList)[i]? = some pair.2.entry := by
    rw [entriesOf, List.getElem?_map, there]
    rfl
  have bound {i : ℕ} {pair : Name × VersionListModule} (there : versionList[i]? = some pair) :
      i < (entriesOf versionList).length := (List.getElem?_eq_some_iff.mp (entry there)).1
  constructor
  · intro settles
    obtain ⟨final, done⟩ := ends.mpr fun i _ entry there => by
      obtain ⟨pair, here, rfl⟩ := getElem?_entriesOf there
      exact exists_search.mpr (settles.named pair (List.mem_of_getElem? here))
    have progress := leaves final done
    refine ⟨final, done, fun i pair there => ?_⟩
    have member := List.mem_of_getElem? there
    obtain ⟨gModule, found, searched, set⟩ := progress.searched i (bound there) _ (entry there)
    constructor
    · intro j other here matched
      rcases search_spec searched with ⟨j', -, -, -, -, -, -, -, rfl, -⟩ | ⟨unidentified, -, result⟩
      · exact ⟨j', set⟩
      · rcases matched with matched | identified
        · have listed : pair.2.versions ≠ [] := fun none =>
            settles.listed pair member none j other here matched
          obtain ⟨j', rfl⟩ :=
            Option.ne_none_iff_exists'.mp (result.mpr ⟨listed, j, other, here, matched⟩)
          exact ⟨j', set⟩
        · exact absurd identified (unidentified other (List.mem_of_getElem? here))
    · rintro ⟨other, loaded_, identified⟩
      rcases search_spec searched with
        ⟨j, module, id, k, first, here, given, -, rfl, -⟩ | ⟨unidentified, -, -⟩
      · obtain ⟨i', ⟨pair', there', first'⟩, last⟩ := exists_last
          (P := fun l => ∃ pair, versionList[l]? = some pair ∧
            FirstIdentified pair.2.buildIds loaded j)
          (fun l ⟨_, present, _⟩ => bound present) ⟨pair, there, first⟩
        have latest : ∀ (l : ℕ) (other : Name × VersionListModule), i' < l →
            versionList[l]? = some other → ¬ FirstIdentified other.2.buildIds loaded j :=
          fun l other above present own => last l above ⟨other, present, own⟩
        obtain ⟨module', id', k', here', given', index, left⟩ :=
          version_of_last progress there' first' latest
        rw [here] at here'
        obtain rfl := Option.some.inj here'
        rw [given] at given'
        obtain rfl := Option.some.inj given'
        exact ⟨j, module, id, k', set, here, given, settles.agreeing pair member i' pair' there' j
          module id here given first first' latest k' index, left⟩
      · exact absurd identified (unidentified other loaded_)
  · rintro ⟨final, done, all⟩
    have progress := leaves final done
    refine ⟨fun pair member listed => ?_, fun pair member none j other here matched => ?_, ?_⟩
    · obtain ⟨i, there⟩ := List.mem_iff_getElem?.mp member
      exact exists_search.mp (ends.mp ⟨final, done⟩ i (bound there) _ (entry there)) listed
    · obtain ⟨i, there⟩ := List.mem_iff_getElem?.mp member
      obtain ⟨gModule, found, searched, set⟩ := progress.searched i (bound there) _ (entry there)
      obtain ⟨j', given⟩ := (all i pair there).matched j other here (.inl matched)
      rw [set] at given
      obtain rfl := Option.some.inj given
      rcases search_spec searched with ⟨_, _, _, _, first, _⟩ | ⟨-, -, result⟩
      · obtain ⟨⟨-, -, id, own, -⟩, -⟩ := first
        rw [VersionListModule.buildIds, none] at own
        cases own
      · exact (result.mp (Option.some_ne_none j')).1 none
    · intro pair member i' pair' there' j module id here given first first' latest k index
      obtain ⟨i, there⟩ := List.mem_iff_getElem?.mp member
      obtain ⟨gModule, found, searched, set⟩ := progress.searched i (bound there) _ (entry there)
      obtain ⟨module', present, identified⟩ := first.1
      obtain ⟨j₂, other, id₂, k₂, given₂, here₂, own₂, listed, left, there₂, index₂⟩ :=
        (all i pair there).version ⟨module', List.mem_of_getElem? present, identified⟩
      rw [set] at given₂
      obtain rfl := Option.some.inj given₂
      have same : j₂ = j := by
        rcases search_spec searched with ⟨j₃, _, _, _, first₃, _, _, _, result, _⟩ | ⟨none, -, -⟩
        · exact (Option.some.inj result).trans (firstIdentified_unique first₃ first)
        · exact absurd identified (none module' (List.mem_of_getElem? present))
      subst same
      obtain ⟨other', id', k', here', own', index', left', there₂', index₂'⟩ :=
        version_of_last progress there' first' latest
      -- both are the module that the entry is set to
      rw [here] at here₂ here'
      obtain rfl := Option.some.inj here₂
      obtain rfl := Option.some.inj here'
      rw [given] at own₂ own'
      obtain rfl := Option.some.inj own₂
      obtain rfl := Option.some.inj own'
      rw [there₂] at there₂'
      obtain rfl := Option.some.inj there₂'
      rw [isFirst_unique index index', ← Int.ofNat.inj (index₂.symm.trans index₂')]
      exact listed

theorem getVersionIndex_entry {module : VersionListModule} {version : Name} {k : ℕ}
    (known : getVersionIndex module.versions version = some k) :
    ∃ id, module.versions[k]? = some (version, id) ∧
      (module.entry.versions.getD [])[k]? = some (id, shortName version) := by
  obtain ⟨bound, same, -⟩ := List.findIdx?_eq_some_iff_getElem.mp known
  have name : (module.versions[k]).1 = version := of_decide_eq_true same
  have listed : module.versions ≠ [] := fun none => by
    rw [none] at bound
    exact absurd bound (Nat.not_lt_zero k)
  refine ⟨(module.versions[k]).2, ?_, ?_⟩
  · rw [List.getElem?_eq_getElem bound, ← name]
  · have entry : module.entry.versions = some _ := if_neg listed
    rw [entry, Option.getD_some, List.getElem?_map, List.getElem?_eq_getElem bound, ← name]
    rfl

/-- The tables round trip exactly when the list can be represented and the modules settle. -/
theorem roundTrips_iff {data : Text} (parsed : parseVersionList data = .ok versionList)
    (loaded : List VersionedModule) : RoundTrips isSymbolChar versionList loaded ↔
      Representable isSymbolChar versionList ∧ Settles versionList loaded := by
  have distinct := nodup_of_parseVersionList parsed
  have length : (entriesOf versionList).length = versionList.length := List.length_map ..
  have reads {image : List (BitVec 8)}
      (read : ∀ i pair, versionList[i]? = some pair → readEntry image i = some pair.2.entry) :
      ReadsEntries image (entriesOf versionList) := fun i entry there => by
    obtain ⟨pair, here, rfl⟩ := getElem?_entriesOf there
    exact read i pair here
  rw [representable_iff distinct]
  constructor
  · rintro ⟨image, count, final, assembled, counted, read, -, done, set⟩
    rw [gNumModules_eq, Option.ite_none_right_eq_some] at counted
    obtain ⟨small, same⟩ := counted
    obtain rfl := Option.some.inj same
    refine ⟨⟨small, image, assembled, read⟩, (settles_iff (reads read)).mpr ⟨final, ?_, set⟩⟩
    have whole : (BitVec.ofNat 64 versionList.length).toNat = versionList.length :=
      Nat.mod_eq_of_lt (by omega)
    rw [whole] at done
    rwa [unloaded, length]
  · rintro ⟨⟨small, image, assembled, read⟩, settles⟩
    obtain ⟨final, done, set⟩ := (settles_iff (reads read)).mp settles
    have whole : (BitVec.ofNat 64 versionList.length).toNat = versionList.length :=
      Nat.mod_eq_of_lt (by omega)
    rw [unloaded, length] at done
    refine ⟨image, BitVec.ofNat 64 versionList.length, final, assembled, ?_, read, ?_, ?_, set⟩
    · rw [gNumModules_eq, if_pos small]
    · exact fun pair _ version k known => getVersionIndex_entry known
    · rwa [whole]

/-- A module of a list, with one version. -/
def oneVersion : Name × VersionListModule :=
  ([0x61], { mod0Name := [0x62], versions := [([0x31], Vector.replicate 16 0)] })

/-- A module that has this version, and whose name is not recorded. -/
def oneModule : VersionedModule where
  text := {}
  rodata := {}
  data := {}
  mBuildId := some (Vector.replicate 16 0)
  rodataBytes := [2, 0, 0, 0]

theorem roundTrips_iff_oneVersion :
    parseVersionList "@a = b\n1 = 00".toList = .ok [oneVersion] ∧
      RoundTrips (fun _ => true) [oneVersion] [oneModule] := by
  have parsed : parseVersionList "@a = b\n1 = 00".toList = .ok [oneVersion] := by rfl
  have alone {before after : VersionList} {pair : Name × VersionListModule}
      (parts : [oneVersion] = before ++ pair :: after) : before = [] ∧ pair = oneVersion := by
    rcases List.append_eq_singleton_iff.mp parts.symm with ⟨none, here⟩ | ⟨-, none⟩
    · exact ⟨none, (List.cons.inj here).1⟩
    · cases none
  refine ⟨parsed, (roundTrips_iff parsed _).mpr ⟨⟨by decide, by decide, ?_, ?_, ?_⟩, ⟨?_, ?_, ?_⟩⟩⟩
  · intro pair member
    obtain rfl := List.mem_singleton.mp member
    refine ⟨by decide, by decide, fun version listed c => ?_, fun c => ?_⟩
    · obtain rfl := List.mem_singleton.mp listed
      exact fun own => List.mem_singleton.mp own ▸ ⟨by decide, by decide, by decide⟩
    · exact fun own => List.mem_singleton.mp own ▸ ⟨by decide, by decide, by decide⟩
  · intro before pair after parts _
    obtain ⟨rfl, rfl⟩ := alone parts
    decide
  · intro before pair after parts _
    obtain ⟨rfl, rfl⟩ := alone parts
    decide
  · intro pair _ _ j module there _
    obtain rfl := List.mem_singleton.mp (List.mem_of_getElem? there)
    exact ⟨none, rfl⟩
  · intro pair member none
    obtain rfl := List.mem_singleton.mp member
    cases none
  · intro pair member i' pair' there' j other id here given _ _ _ k index
    obtain rfl := List.mem_singleton.mp member
    obtain rfl := List.mem_singleton.mp (List.mem_of_getElem? there')
    exact index.1

end Lists

end Hakkun.Sail
