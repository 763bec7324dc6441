import Hakkun.Soundness.Resolution

/-! # What a symbol truly resolves to

The addresses that entries stand for, as a relation of their own: a search that fails, a version
that does not apply or a base symbol that does not resolve gives no address. The resolution of the
runtime has no value for that. It leaves 0, leaves the result as it was, adds an offset to 0, or
aborts, so that it finds the right candidate only where none of these gets in its way.
-/

namespace Hakkun.Sail

open Machine.Core Util

variable (gSymbols : List DbEntry) (process : Process)

/-! ## The relation -/

/-- What is resolved: one definition, the entry with a hash, the candidates of one of the two passes,
or all candidates of an entry. -/
inductive Subject where
  | entry (data : EntryData)
  | hash (nameMurmur : U32)
  | candidates (immediates : Bool) (candidates : List Entry)
  | multiple (candidates : List Entry)

def EntryData.isImmediate : EntryData → Bool
  | .immediate .. => true
  | _ => false

/-- The module that was loaded for an index. -/
def Process.loaded (moduleIdx : ℕ) : Option LoadedModule := process.gModules[moduleIdx]?.join

/-- The version of an immediate. -/
def LoadedModule.matchesVersion (module : LoadedModule) (versionsBitset : U64) : Prop :=
  0 ≤ module.mVersionIndex ∧ module.mVersionIndex < 64 ∧
    versionsBitset >>> module.mVersionIndex.toNat &&& 1 ≠ 0

instance (module : LoadedModule) (versionsBitset : U64) :
    Decidable (module.matchesVersion versionsBitset) := inferInstanceAs (Decidable (_ ∧ _ ∧ _))

/-- The version boundary of a data block: older than a version, or from it on. -/
def LoadedModule.appliesTo (module : LoadedModule)
    (versionBoundaryType versionBoundary : BitVec 8) : Prop :=
  (versionBoundaryType = 1 → module.mVersionIndex < versionBoundary.toNat) ∧
    (versionBoundaryType = 2 → versionBoundary.toNat ≤ module.mVersionIndex)

instance (module : LoadedModule) (versionBoundaryType versionBoundary : BitVec 8) :
    Decidable (module.appliesTo versionBoundaryType versionBoundary) :=
  inferInstanceAs (Decidable ((_ → _) ∧ (_ → _)))

/-- An address other than the null pointer. -/
def found (address : Ptr) : Option Ptr := if address = 0 then none else some address

/-- What a definition that is not made from another symbol resolves to. -/
def Process.direct : EntryData → Option Ptr
  | .immediate versionsBitset moduleIdx offsetIntoModule =>
    (process.loaded moduleIdx.toNat).bind fun module =>
      if module.matchesVersion versionsBitset then
        some (module.range.mStart + offsetIntoModule.setWidth 64)
      else none
  | .dynamic lookupNameRtldHash lookupNameMurmur lookupNameDjb2 =>
    found (process.lookupSymbol lookupNameRtldHash lookupNameDjb2 lookupNameMurmur)
  | .dataBlock data dataMask moduleIdx versionBoundaryType versionBoundary sectionLimit
      offsetToFoundBlock =>
    (process.loaded moduleIdx.toNat).bind fun module =>
      if module.appliesTo versionBoundaryType versionBoundary then
        (found (process.search data dataMask (module.limited sectionLimit))).map
          (· + offsetToFoundBlock.signExtend 64)
      else none
  | .readADRPGlobal .. | .arithmetic .. => none

/-- What the instructions at an address refer to. -/
def Process.global (at_ : Ptr) (offsetToLoInstr : U32) : Option Ptr :=
  match readADRPGlobal process at_ offsetToLoInstr with
  | .ok value => value
  | .error _ => none

/-- What a subject truly resolves to; of candidates the first immediate that resolves, or else the
first other one. -/
inductive Judges : Subject → Option Ptr → Prop
  | direct {data : EntryData} (plain : data.source? = none) :
    Judges (.entry data) (process.direct data)
  | arithmetic {srcNameMurmur addend : U32} {base : Option Ptr}
    (judged : Judges (.hash srcNameMurmur) base) :
    Judges (.entry (.arithmetic srcNameMurmur addend))
      (base.map (· + addend.signExtend 64))
  | readADRPGlobal {srcNameMurmur offsetToLoInstr : U32} {base : Option Ptr}
    (judged : Judges (.hash srcNameMurmur) base) :
    Judges (.entry (.readADRPGlobal srcNameMurmur offsetToLoInstr))
      (base.bind fun at_ => process.global at_ offsetToLoInstr)
  | missing {nameMurmur : U32} (absent : lookupSymbolByHash gSymbols nameMurmur = some (-1)) :
    Judges (.hash nameMurmur) none
  | single {nameMurmur : U32} {idx : ℕ} {entry : Entry} {answer : Option Ptr}
    (search : lookupSymbolByHash gSymbols nameMurmur = some (idx : ℤ))
    (here : gSymbols[idx]? = some (.single entry)) (judged : Judges (.entry entry.data) answer) :
    Judges (.hash nameMurmur) answer
  | several {nameMurmur destNameMurmur : U32} {idx : ℕ} {candidates : List Entry}
    {answer : Option Ptr} (search : lookupSymbolByHash gSymbols nameMurmur = some (idx : ℤ))
    (here : gSymbols[idx]? = some (.multiple destNameMurmur candidates))
    (judged : Judges (.multiple candidates) answer) : Judges (.hash nameMurmur) answer
  | nil {immediates : Bool} : Judges (.candidates immediates []) none
  | skip {immediates : Bool} {cur : Entry} {rest : List Entry} {answer : Option Ptr}
    (other : cur.data.isImmediate ≠ immediates) (judged : Judges (.candidates immediates rest) answer) :
    Judges (.candidates immediates (cur :: rest)) answer
  | unresolved {immediates : Bool} {cur : Entry} {rest : List Entry} {answer : Option Ptr}
    (tried : cur.data.isImmediate = immediates) (fails : Judges (.entry cur.data) none)
    (judged : Judges (.candidates immediates rest) answer) :
    Judges (.candidates immediates (cur :: rest)) answer
  | resolved {immediates : Bool} {cur : Entry} {rest : List Entry} {address : Ptr}
    (tried : cur.data.isImmediate = immediates)
    (judged : Judges (.entry cur.data) (some address)) :
    Judges (.candidates immediates (cur :: rest)) (some address)
  | immediate {candidates : List Entry} {address : Ptr}
    (judged : Judges (.candidates true candidates) (some address)) :
    Judges (.multiple candidates) (some address)
  | other {candidates : List Entry} {answer : Option Ptr}
    (fails : Judges (.candidates true candidates) none)
    (judged : Judges (.candidates false candidates) answer) : Judges (.multiple candidates) answer

variable {gSymbols process}

theorem Judges.unique {subject : Subject} {first second : Option Ptr}
    (one : Judges gSymbols process subject first) (two : Judges gSymbols process subject second) :
    first = second := by
  induction one generalizing second with
  | direct plain =>
    cases two with
    | direct => rfl
    | arithmetic => cases plain
    | readADRPGlobal => cases plain
  | arithmetic judged ih =>
    cases two with
    | direct plain => cases plain
    | arithmetic judged' => rw [ih judged']
  | readADRPGlobal judged ih =>
    cases two with
    | direct plain => cases plain
    | readADRPGlobal judged' => rw [ih judged']
  | missing absent =>
    cases two with
    | missing => rfl
    | single search =>
      have := Option.some.inj (absent.symm.trans search)
      omega
    | several search =>
      have := Option.some.inj (absent.symm.trans search)
      omega
  | single search here judged ih =>
    cases two with
    | missing absent =>
      have := Option.some.inj (absent.symm.trans search)
      omega
    | single search' here' judged' =>
      obtain rfl := Int.ofNat.inj (Option.some.inj (search.symm.trans search'))
      cases here.symm.trans here'
      exact ih judged'
    | several search' here' judged' =>
      obtain rfl := Int.ofNat.inj (Option.some.inj (search.symm.trans search'))
      cases here.symm.trans here'
  | several search here judged ih =>
    cases two with
    | missing absent =>
      have := Option.some.inj (absent.symm.trans search)
      omega
    | single search' here' judged' =>
      obtain rfl := Int.ofNat.inj (Option.some.inj (search.symm.trans search'))
      cases here.symm.trans here'
    | several search' here' judged' =>
      obtain rfl := Int.ofNat.inj (Option.some.inj (search.symm.trans search'))
      cases here.symm.trans here'
      exact ih judged'
  | nil =>
    cases two
    rfl
  | skip other judged ih =>
    cases two with
    | skip _ judged' => exact ih judged'
    | unresolved tried => exact absurd tried other
    | resolved tried => exact absurd tried other
  | unresolved tried fails judged failsIh ih =>
    cases two with
    | skip other => exact absurd tried other
    | unresolved _ _ judged' => exact ih judged'
    | resolved _ judged' => cases failsIh judged'
  | resolved tried judged ih =>
    cases two with
    | skip other => exact absurd tried other
    | unresolved _ fails => cases ih fails
    | resolved _ judged' => exact ih judged'
  | immediate judged ih =>
    cases two with
    | immediate judged' => exact ih judged'
    | other fails => cases ih fails
  | other fails judged failsIh ih =>
    cases two with
    | immediate judged' => cases failsIh judged'
    | other _ judged' => exact ih judged'

/-! ## Where the resolution agrees -/

variable (gSymbols process)

/-- The boundaries that the switch of a data block lets through; the case for older versions falls
through to the other one, and never gets to the search. -/
def LoadedModule.searches (module : LoadedModule)
    (versionBoundaryType versionBoundary : BitVec 8) : Prop :=
  versionBoundaryType ≠ 1 ∧ module.appliesTo versionBoundaryType versionBoundary

instance (module : LoadedModule) (versionBoundaryType versionBoundary : BitVec 8) :
    Decidable (module.searches versionBoundaryType versionBoundary) :=
  inferInstanceAs (Decidable (_ ∧ _))

/-- A definition whose module is loaded, in a known version, that leaves 0 when it does not resolve:
either the result holds 0 before, as `written` says, or 0 is what the failed search gives. -/
def Process.Tame (written : Bool) : EntryData → Prop
  | .immediate versionsBitset moduleIdx _ =>
    ∃ module, process.loaded moduleIdx.toNat = some module ∧ 0 ≤ module.mVersionIndex ∧
      module.mVersionIndex < 64 ∧ (module.matchesVersion versionsBitset ∨ written = true)
  | .dataBlock data dataMask moduleIdx versionBoundaryType versionBoundary sectionLimit
      offsetToFoundBlock =>
    ∃ module, process.loaded moduleIdx.toNat = some module ∧
      if module.searches versionBoundaryType versionBoundary then
        process.search data dataMask (module.limited sectionLimit) = 0 → offsetToFoundBlock = 0
      else
        written = true ∧ process.direct (.dataBlock data dataMask moduleIdx versionBoundaryType
          versionBoundary sectionLimit offsetToFoundBlock) = none
  | _ => True

/-- The subjects that resolve without a failure getting in the way: each definition on the way is
tame, nothing but 0 is added to a base that does not resolve, no instruction is read there, and no
entry of candidates fails within another one. -/
inductive Clean : Bool → Subject → Option Ptr → Prop
  | direct {written : Bool} {data : EntryData} (plain : data.source? = none)
    (tame : process.Tame written data) : Clean written (.entry data) (process.direct data)
  | arithmetic {written : Bool} {srcNameMurmur addend : U32} {base : Option Ptr}
    (clean : Clean false (.hash srcNameMurmur) base) (nothing : base = none → addend = 0) :
    Clean written (.entry (.arithmetic srcNameMurmur addend))
      (base.map (· + addend.signExtend 64))
  | readADRPGlobal {written : Bool} {srcNameMurmur offsetToLoInstr : U32} {at_ : Ptr}
    {value : Option Ptr} (clean : Clean false (.hash srcNameMurmur) (some at_))
    (reads : readADRPGlobal process at_ offsetToLoInstr = .ok value)
    (leaves : value = none → written = true) :
    Clean written (.entry (.readADRPGlobal srcNameMurmur offsetToLoInstr)) value
  | single {written : Bool} {nameMurmur : U32} {idx : ℕ} {entry : Entry} {answer : Option Ptr}
    (search : lookupSymbolByHash gSymbols nameMurmur = some (idx : ℤ))
    (here : gSymbols[idx]? = some (.single entry)) (clean : Clean written (.entry entry.data) answer) :
    Clean written (.hash nameMurmur) answer
  | several {written : Bool} {nameMurmur destNameMurmur : U32} {idx : ℕ} {candidates : List Entry}
    {address : Ptr} (search : lookupSymbolByHash gSymbols nameMurmur = some (idx : ℤ))
    (here : gSymbols[idx]? = some (.multiple destNameMurmur candidates))
    (clean : Clean true (.multiple candidates) (some address)) :
    Clean written (.hash nameMurmur) (some address)
  | nil {immediates : Bool} : Clean true (.candidates immediates []) none
  | skip {immediates : Bool} {cur : Entry} {rest : List Entry} {answer : Option Ptr}
    (other : cur.data.isImmediate ≠ immediates)
    (clean : Clean true (.candidates immediates rest) answer) :
    Clean true (.candidates immediates (cur :: rest)) answer
  | unresolved {immediates : Bool} {cur : Entry} {rest : List Entry} {answer : Option Ptr}
    (tried : cur.data.isImmediate = immediates) (fails : Clean true (.entry cur.data) none)
    (clean : Clean true (.candidates immediates rest) answer) :
    Clean true (.candidates immediates (cur :: rest)) answer
  | resolved {immediates : Bool} {cur : Entry} {rest : List Entry} {address : Ptr}
    (tried : cur.data.isImmediate = immediates) (clean : Clean true (.entry cur.data) (some address))
    (nonzero : address ≠ 0) : Clean true (.candidates immediates (cur :: rest)) (some address)
  | immediate {candidates : List Entry} {address : Ptr}
    (clean : Clean true (.candidates true candidates) (some address)) :
    Clean true (.multiple candidates) (some address)
  | other {candidates : List Entry} {answer : Option Ptr}
    (fails : Clean true (.candidates true candidates) none)
    (clean : Clean true (.candidates false candidates) answer) :
    Clean true (.multiple candidates) answer

variable {gSymbols process} {written : Bool} {subject : Subject} {answer : Option Ptr}

theorem Clean.judges (clean : Clean gSymbols process written subject answer) :
    Judges gSymbols process subject answer := by
  induction clean with
  | direct plain => exact .direct plain
  | arithmetic _ _ ih => exact .arithmetic ih
  | @readADRPGlobal _ _ offsetToLoInstr at_ value _ reads _ ih =>
    have same : process.global at_ offsetToLoInstr = value := by rw [Process.global, reads]
    exact same ▸ .readADRPGlobal ih
  | single search here _ ih => exact .single search here ih
  | several search here _ ih => exact .several search here ih
  | nil => exact .nil
  | skip other _ ih => exact .skip other ih
  | unresolved tried _ _ fails ih => exact .unresolved tried fails ih
  | resolved tried _ _ ih => exact .resolved tried ih
  | immediate _ ih => exact .immediate ih
  | other _ _ fails ih => exact .other fails ih

/-! ## One definition -/

theorem get_of_loaded {moduleIdx : ℕ} {module : LoadedModule}
    (loaded : process.loaded moduleIdx = some module) :
    process.gModules[moduleIdx]? = some (some module) :=
  Option.join_eq_some_iff.mp loaded

theorem getD_found (address : Ptr) : (found address).getD 0 = address := by
  rw [found]
  split
  case isTrue null => exact null.symm
  case isFalse => rfl

theorem found_eq_none {address : Ptr} : found address = none ↔ address = 0 := by
  rw [found]
  split <;> simp_all

section Plain

variable {abort : Bool} {out : Option Ptr}

theorem applyImmediateSymbol_of_tame {versionsBitset : U64} {moduleIdx offsetIntoModule : U32}
    (tame : process.Tame written (.immediate versionsBitset moduleIdx offsetIntoModule))
    (quiet : process.direct (.immediate versionsBitset moduleIdx offsetIntoModule) = none →
      abort = false) (before : written = true → out = some 0) (dest : DestSymbol) :
    applyImmediateSymbol process abort versionsBitset moduleIdx offsetIntoModule out dest =
      .ok (some ((process.direct (.immediate versionsBitset moduleIdx offsetIntoModule)).getD 0)) := by
  obtain ⟨module, loaded, known, small, leaves⟩ := tame
  have here := get_of_loaded loaded
  have version : isVersion process.gModules versionsBitset moduleIdx =
      .ok (versionsBitset >>> module.mVersionIndex.toNat &&& 1 != 0) := by
    rw [isVersion, here]
    exact if_pos ⟨known, small⟩
  rw [applyImmediateSymbol, here]
  simp only [version, Process.direct, loaded, Option.bind_some] at quiet ⊢
  by_cases matching : module.matchesVersion versionsBitset
  · rw [if_pos matching]
    exact if_pos (bne_iff_ne.mpr matching.2.2)
  · have other : ¬ (versionsBitset >>> module.mVersionIndex.toNat &&& 1 != 0) = true :=
      fun set => matching ⟨known, small, bne_iff_ne.mp set⟩
    obtain rfl := quiet (if_neg matching)
    obtain rfl := before (leaves.resolve_left matching)
    rw [if_neg matching]
    exact if_neg other

theorem applyDynamicSymbol_of_quiet {lookupNameRtldHash : U64}
    {lookupNameMurmur lookupNameDjb2 : U32}
    (quiet : process.direct (.dynamic lookupNameRtldHash lookupNameMurmur lookupNameDjb2) = none →
      abort = false) (dest : DestSymbol) :
    applyDynamicSymbol process abort lookupNameRtldHash lookupNameMurmur lookupNameDjb2 dest =
      .ok (some ((process.direct (.dynamic lookupNameRtldHash lookupNameMurmur
        lookupNameDjb2)).getD 0)) := by
  have silent : ¬ (abort = true ∧
      process.lookupSymbol lookupNameRtldHash lookupNameDjb2 lookupNameMurmur = 0) :=
    fun ⟨loud, null⟩ => absurd loud (quiet (found_eq_none.mpr null) ▸ Bool.false_ne_true)
  rw [Process.direct, getD_found]
  exact if_neg silent

section DataBlock

variable {data dataMask : List (BitVec 8)}
  {moduleIdx versionBoundaryType versionBoundary sectionLimit : BitVec 8} {offsetToFoundBlock : U32}

/-- Outside its boundary a data block leaves the result as it is. -/
theorem applyDataBlockSymbol_of_stays {module : LoadedModule}
    (loaded : process.loaded moduleIdx.toNat = some module)
    (stays : ¬ module.searches versionBoundaryType versionBoundary) (dest : DestSymbol) :
    applyDataBlockSymbol process abort data dataMask moduleIdx versionBoundaryType
      versionBoundary sectionLimit offsetToFoundBlock out dest = .ok out := by
  rw [applyDataBlockSymbol, get_of_loaded loaded]
  dsimp only
  split
  case isTrue => rfl
  case isFalse notOlder =>
    apply if_pos
    by_contra goes
    refine stays ⟨fun is1 => ?_, fun is1 => ?_, fun is2 => ?_⟩
    · exact goes ⟨.inl is1, not_le.mp fun large => notOlder ⟨is1, large⟩⟩
    · exact not_le.mp fun large => notOlder ⟨is1, large⟩
    · exact not_lt.mp fun small => goes ⟨.inr is2, small⟩

theorem applyDataBlockSymbol_of_tame
    (tame : process.Tame written (.dataBlock data dataMask moduleIdx versionBoundaryType
      versionBoundary sectionLimit offsetToFoundBlock))
    (quiet : process.direct (.dataBlock data dataMask moduleIdx versionBoundaryType
      versionBoundary sectionLimit offsetToFoundBlock) = none → abort = false)
    (before : written = true → out = some 0) (dest : DestSymbol) :
    applyDataBlockSymbol process abort data dataMask moduleIdx versionBoundaryType
      versionBoundary sectionLimit offsetToFoundBlock out dest =
      .ok (some ((process.direct (.dataBlock data dataMask moduleIdx versionBoundaryType
        versionBoundary sectionLimit offsetToFoundBlock)).getD 0)) := by
  obtain ⟨module, loaded, leaves⟩ := tame
  split at leaves
  case isFalse stays =>
    obtain ⟨rfl, fails⟩ := leaves
    obtain rfl := before rfl
    rw [fails]
    exact applyDataBlockSymbol_of_stays loaded stays dest
  case isTrue searches =>
    obtain ⟨notOlder, older, newer⟩ := searches
    rw [applyDataBlockSymbol, get_of_loaded loaded]
    dsimp only
    rw [if_neg fun bound => notOlder bound.1]
    rw [if_neg fun bound =>
      absurd (newer (bound.1.resolve_left notOlder)) (not_le.mpr bound.2)]
    simp only [Process.direct, loaded, Option.bind_some,
      if_pos (show module.appliesTo _ _ from ⟨older, newer⟩)] at quiet ⊢
    by_cases null : process.search data dataMask (module.limited sectionLimit) = 0
    · obtain rfl := leaves null
      have silent := quiet (by rw [found_eq_none.mpr null]; rfl)
      rw [silent, if_neg fun loud => Bool.false_ne_true loud.1, found_eq_none.mpr null, null]
      rfl
    · rw [if_neg fun missed => null missed.2, found, if_neg null]
      rfl

end DataBlock

end Plain

/-! ## What is cached -/

variable (gSymbols process) in
/-- What the entry at a location is for. -/
def subject? (location : Location) : Option Subject :=
  match gSymbols[location.index]?, location.candidate with
  | some (.single entry), none => some (.entry entry.data)
  | some (.multiple _ candidates), none => some (.multiple candidates)
  | some (.multiple _ candidates), some i => candidates[i]?.map fun entry => .entry entry.data
  | _, _ => none

variable (gSymbols process) in
/-- Every address that is cached is what its entry truly resolves to; 0 and 1 are no addresses. -/
def Sound (caches : Caches) : Prop :=
  ∀ location, caches location ≠ 0 → caches location ≠ 1 → ∃ subject,
    subject? gSymbols location = some subject ∧
      Judges gSymbols process subject (some (caches location))

variable {caches caches' : Caches} {location : Location}

theorem Sound.cached (sound : Sound gSymbols process caches)
    (names : subject? gSymbols location = some subject) (judged : Judges gSymbols process subject answer)
    (cached : caches location ≠ 1 ∧ caches location ≠ 0) : answer = some (caches location) := by
  obtain ⟨subject', names', judged'⟩ := sound location cached.2 cached.1
  obtain rfl := Option.some.inj (names.symm.trans names')
  exact judged.unique judged'

theorem Sound.update (sound : Sound gSymbols process caches)
    (names : subject? gSymbols location = some subject)
    (judged : Judges gSymbols process subject answer) :
    Sound gSymbols process (Function.update caches location (answer.getD 0)) := by
  intro other nonzero enabled
  by_cases same : other = location
  · subst same
    rw [Function.update_self] at nonzero ⊢
    cases answer with
    | none => exact absurd rfl nonzero
    | some address => exact ⟨subject, names, judged⟩
  · rw [Function.update_of_ne same] at nonzero enabled ⊢
    exact sound other nonzero enabled

variable (gSymbols process) in
/-- With enough fuel a computation leaves an answer in the result, 0 for none, and the caches sound. -/
def Answers (compute : ℕ → Except Fault (Option Ptr × Caches)) (answer : Option Ptr) : Prop :=
  ∃ caches, Sound gSymbols process caches ∧ Ends compute (.ok (some (answer.getD 0), caches))

theorem Answers.congr {compute compute' : ℕ → Except Fault (Option Ptr × Caches)}
    (same : ∀ fuel, compute fuel = compute' fuel) (answers : Answers gSymbols process compute' answer) :
    Answers gSymbols process compute answer := by
  rwa [funext same]

theorem Answers.withCache {body : ℕ → Except Fault (Option Ptr × Caches)}
    (sound : Sound gSymbols process caches) (names : subject? gSymbols location = some subject)
    (judged : Judges gSymbols process subject answer) (answers : Answers gSymbols process body answer) :
    Answers gSymbols process (fun fuel => withCache location caches (body fuel)) answer := by
  by_cases cached : caches location ≠ 1 ∧ caches location ≠ 0
  · obtain rfl := sound.cached names judged cached
    exact ⟨caches, sound, .of_forall fun fuel => if_pos cached⟩
  · obtain ⟨caches', sound', ends⟩ := answers
    by_cases enabled : caches' location ≠ 1
    · refine ⟨_, sound'.update names judged, .congr (fun fuel => if_neg cached) (ends.bind ?_)⟩
      exact .of_forall fun fuel => if_pos enabled
    · refine ⟨caches', sound', .congr (fun fuel => if_neg cached) (ends.bind ?_)⟩
      exact .of_forall fun fuel => if_neg enabled

/-! ## Entries that are resolved through others -/

section Resolves

variable (gSymbols process)

/-- How sources are resolved with some amount of fuel. -/
def sourceOf (fuel : ℕ) : Source := applySource gSymbols (apply gSymbols process fuel)

/-- The entry of a definition is applied as the definition truly resolves. -/
def EntryResolves (written : Bool) (data : EntryData) (answer : Option Ptr) : Prop :=
  ∀ abort (entry : Entry) location out dest caches, entry.data = data →
    subject? gSymbols location = some (.entry data) → (answer = none → abort = false) →
    (written = true → out = some 0) → Sound gSymbols process caches →
    Answers gSymbols process (fun fuel =>
      applyEntry process (sourceOf gSymbols process fuel) abort entry location out dest caches) answer

/-- The entry with a hash is found and applied. -/
def HashResolves (written : Bool) (nameMurmur : U32) (answer : Option Ptr) : Prop :=
  ∃ idx : ℕ, lookupSymbolByHash gSymbols nameMurmur = some (idx : ℤ) ∧
    ∀ abort out dest caches, (answer = none → abort = false) → (written = true → out = some 0) →
      Sound gSymbols process caches →
      Answers gSymbols process (fun fuel => apply gSymbols process fuel abort idx out dest caches)
        answer

/-- The candidates stand at the locations of an entry from an index on. -/
def Stand (index i : ℕ) (candidates : List Entry) : Prop :=
  ∀ j candidate, candidates[j]? = some candidate →
    subject? gSymbols ⟨index, some (i + j)⟩ = some (.entry candidate.data)

/-- The immediates among candidates give no address. -/
def ImmediatesFail (candidates : List Entry) : Prop :=
  ∀ candidate ∈ candidates, candidate.data.isImmediate = true →
    EntryResolves gSymbols process true candidate.data none

/-- One pass over candidates; immediates that have failed are tried again in the second. -/
def CandidatesResolve (immediates : Bool) (candidates : List Entry) (answer : Option Ptr) : Prop :=
  ∀ index i dest caches, Stand gSymbols index i candidates →
    (immediates = false → ImmediatesFail gSymbols process candidates) →
    Sound gSymbols process caches → ∃ caches', Sound gSymbols process caches' ∧ Ends (fun fuel =>
      applyCandidates process (sourceOf gSymbols process fuel) index immediates dest candidates i
        (some 0) caches) (.ok (answer.isSome, some (answer.getD 0), caches'))

/-- The abort for candidates of which none resolves. -/
def DestSymbol.noCandidate (dest : DestSymbol) (numCandidates : ℕ) : Fault :=
  .abort ("UnresolvedSymbol: " ++ dest.conversion ++ " (Multiple out of %zu candidates)")
    [.destSymbol dest, .number numCandidates]

/-- Both passes; without an answer they abort. -/
def MultipleResolves (candidates : List Entry) (answer : Option Ptr) : Prop :=
  ∀ index dest caches, Stand gSymbols index 0 candidates → Sound gSymbols process caches →
    let compute fuel :=
      applyMultipleCandidateSymbol process (sourceOf gSymbols process fuel) index candidates dest caches
    match answer with
    | some address => Answers gSymbols process compute (some address)
    | none => Ends compute (.error (dest.noCandidate candidates.length))

def Resolves (written : Bool) : Subject → Option Ptr → Prop
  | .entry data, answer => EntryResolves gSymbols process written data answer
  | .hash nameMurmur, answer => HashResolves gSymbols process written nameMurmur answer
  | .candidates immediates candidates, answer =>
    CandidatesResolve gSymbols process immediates candidates answer ∧
      (immediates = true → answer = none → ImmediatesFail gSymbols process candidates)
  | .multiple candidates, answer => MultipleResolves gSymbols process candidates answer

end Resolves

theorem entryResolves_direct {data : EntryData} (plain : data.source? = none)
    (tame : process.Tame written data) :
    EntryResolves gSymbols process written data (process.direct data) := by
  intro abort entry location out dest caches same names quiet before sound
  refine Answers.withCache sound names (.direct plain) ⟨caches, sound, .of_forall fun fuel => ?_⟩
  rw [same]
  cases data with
  | immediate =>
    dsimp only
    rw [applyImmediateSymbol_of_tame tame quiet before]
    rfl
  | dynamic =>
    dsimp only
    rw [applyDynamicSymbol_of_quiet quiet]
    rfl
  | dataBlock =>
    dsimp only
    rw [applyDataBlockSymbol_of_tame tame quiet before]
    rfl
  | readADRPGlobal | arithmetic => cases plain

/-- The source of an entry is resolved into a result that nothing was written to. -/
theorem HashResolves.source {nameMurmur : U32}
    (resolves : HashResolves gSymbols process false nameMurmur answer) {abort : Bool}
    (quiet : answer = none → abort = false) (dest : DestSymbol)
    (sound : Sound gSymbols process caches) :
    Answers gSymbols process (fun fuel => sourceOf gSymbols process fuel abort nameMurmur dest caches)
      answer := by
  obtain ⟨idx, search, applies⟩ := resolves
  refine .congr (fun fuel => ?_) (applies abort none dest caches quiet nofun sound)
  have exists_ : (idx : ℤ) ≠ -1 := by omega
  simp only [sourceOf, applySource, search, if_neg exists_, Int.toNat_natCast]

theorem entryResolves_arithmetic {srcNameMurmur addend : U32} {base : Option Ptr}
    (judged : Judges gSymbols process (.hash srcNameMurmur) base)
    (resolves : HashResolves gSymbols process false srcNameMurmur base)
    (nothing : base = none → addend = 0) :
    EntryResolves gSymbols process written (.arithmetic srcNameMurmur addend)
      (base.map (· + addend.signExtend 64)) := by
  intro abort entry location out dest caches same names quiet before sound
  refine Answers.withCache sound names (.arithmetic judged) ?_
  have quiet' (missing : base = none) : abort = false := quiet (by rw [missing]; rfl)
  obtain ⟨caches', sound', ends⟩ := resolves.source quiet' (.murmur entry.destNameMurmur) sound
  refine ⟨caches', sound', .congr (fun fuel => by rw [same]) (ends.bind (.of_forall fun _ => ?_))⟩
  cases base with
  | some at_ => rfl
  | none =>
    obtain rfl := nothing rfl
    rfl

theorem entryResolves_readADRPGlobal {srcNameMurmur offsetToLoInstr : U32} {at_ : Ptr}
    {value : Option Ptr}
    (judged : Judges gSymbols process (.entry (.readADRPGlobal srcNameMurmur offsetToLoInstr)) value)
    (resolves : HashResolves gSymbols process false srcNameMurmur (some at_))
    (reads : readADRPGlobal process at_ offsetToLoInstr = .ok value)
    (leaves : value = none → written = true) :
    EntryResolves gSymbols process written (.readADRPGlobal srcNameMurmur offsetToLoInstr) value := by
  intro abort entry location out dest caches same names quiet before sound
  refine Answers.withCache sound names judged ?_
  obtain ⟨caches', sound', ends⟩ :=
    resolves.source nofun (.murmur entry.destNameMurmur) sound
  refine ⟨caches', sound', .congr (fun fuel => by rw [same]) (ends.bind (.of_forall fun _ => ?_))⟩
  simp only [Option.getD_some, reads]
  cases value with
  | some value => rfl
  | none =>
    obtain rfl := quiet rfl
    obtain rfl := before (leaves rfl)
    rfl

theorem HashResolves.single {nameMurmur : U32} {idx : ℕ} {entry : Entry}
    (search : lookupSymbolByHash gSymbols nameMurmur = some (idx : ℤ))
    (here : gSymbols[idx]? = some (.single entry))
    (resolves : EntryResolves gSymbols process written entry.data answer) :
    HashResolves gSymbols process written nameMurmur answer := by
  refine ⟨idx, search, fun abort out dest caches quiet before sound => ?_⟩
  have names : subject? gSymbols ⟨idx, none⟩ = some (.entry entry.data) := by rw [subject?, here]
  obtain ⟨caches', sound', ends⟩ := resolves abort entry ⟨idx, none⟩ out dest caches rfl names quiet
    before sound
  refine ⟨caches', sound', .of_succ (.congr (fun fuel => ?_) ends)⟩
  rw [apply, here]
  rfl

theorem stand_multiple {idx : ℕ} {destNameMurmur : U32} {candidates : List Entry}
    (here : gSymbols[idx]? = some (.multiple destNameMurmur candidates)) :
    Stand gSymbols idx 0 candidates := by
  intro j candidate listed
  rw [subject?, here]
  simp only [zero_add, listed, Option.map_some]

theorem MultipleResolves.apply {destNameMurmur : U32} {idx : ℕ} {candidates : List Entry}
    {address : Ptr} (here : gSymbols[idx]? = some (.multiple destNameMurmur candidates))
    (judged : Judges gSymbols process (.multiple candidates) (some address))
    (resolves : MultipleResolves gSymbols process candidates (some address)) (abort : Bool)
    (out : Option Ptr) (dest : DestSymbol) (sound : Sound gSymbols process caches) :
    Answers gSymbols process (fun fuel => Sail.apply gSymbols process fuel abort idx out dest caches)
      (some address) := by
  have names : subject? gSymbols ⟨idx, none⟩ = some (.multiple candidates) := by rw [subject?, here]
  obtain ⟨caches', sound', ends⟩ := Answers.withCache sound names judged
    (resolves idx dest caches (stand_multiple here) sound)
  refine ⟨caches', sound', .of_succ (.congr (fun fuel => ?_) ends)⟩
  rw [Sail.apply, here]
  rfl

/-! ## The two passes -/

variable {immediates : Bool} {cur : Entry} {rest : List Entry}

theorem Stand.head {index i : ℕ} (stand : Stand gSymbols index i (cur :: rest)) :
    subject? gSymbols ⟨index, some i⟩ = some (.entry cur.data) :=
  stand 0 cur rfl

theorem Stand.tail {index i : ℕ} (stand : Stand gSymbols index i (cur :: rest)) :
    Stand gSymbols index (i + 1) rest := by
  intro j candidate listed
  rw [add_assoc, add_comm 1]
  exact stand (j + 1) candidate listed

/-- The pass over immediates goes past the others. -/
theorem applyCandidates_skip (source : Source) (index : ℕ) (dest : DestSymbol) (i : ℕ)
    (out : Option Ptr) (caches : Caches) (other : cur.data.isImmediate = false) :
    applyCandidates process source index true dest (cur :: rest) i out caches =
      applyCandidates process source index true dest rest (i + 1) out caches := by
  rw [applyCandidates]
  refine if_pos ⟨rfl, ?_⟩
  cases data : cur.data <;> simp_all [EntryData.isImmediate]

/-- Any other candidate is applied, and the pass goes on after 0. -/
theorem applyCandidates_cons (source : Source) (index : ℕ) (dest : DestSymbol) (i : ℕ)
    (out : Option Ptr) (caches : Caches)
    (tried : immediates = true → cur.data.isImmediate = true) :
    applyCandidates process source index immediates dest (cur :: rest) i out caches = (do
      let (out, caches) ← applyEntry process source false cur ⟨index, some i⟩ out dest caches
      match out with
      | none => .error .undefined
      | some address =>
        if address ≠ 0 then .ok (true, out, caches)
        else applyCandidates process source index immediates dest rest (i + 1) out caches) := by
  rw [applyCandidates]
  apply if_neg
  rintro ⟨first, other⟩
  have immediate := tried first
  cases data : cur.data <;> simp_all [EntryData.isImmediate]

/-- A candidate that does not resolve is passed over. -/
theorem CandidatesResolve.pass (tried : immediates = true → cur.data.isImmediate = true)
    (fails : EntryResolves gSymbols process true cur.data none)
    (later : CandidatesResolve gSymbols process immediates rest answer) :
    CandidatesResolve gSymbols process immediates (cur :: rest) answer := by
  intro index i dest caches stand again sound
  obtain ⟨caches', sound', ends⟩ := fails false cur ⟨index, some i⟩ (some 0) dest caches rfl stand.head
    (fun _ => rfl) (fun _ => rfl) sound
  obtain ⟨caches'', sound'', ends'⟩ := later index (i + 1) dest caches' stand.tail
    (fun second candidate member => again second candidate (List.mem_cons_of_mem _ member)) sound'
  refine ⟨caches'', sound'', .congr (fun fuel => applyCandidates_cons _ _ _ _ _ _ tried) ?_⟩
  exact ends.bind ends'

theorem CandidatesResolve.found {address : Ptr}
    (tried : immediates = true → cur.data.isImmediate = true)
    (resolves : EntryResolves gSymbols process true cur.data (some address)) (nonzero : address ≠ 0) :
    CandidatesResolve gSymbols process immediates (cur :: rest) (some address) := by
  intro index i dest caches stand again sound
  obtain ⟨caches', sound', ends⟩ := resolves false cur ⟨index, some i⟩ (some 0) dest caches rfl
    stand.head (fun _ => rfl) (fun _ => rfl) sound
  refine ⟨caches', sound', .congr (fun fuel => applyCandidates_cons _ _ _ _ _ _ tried) ?_⟩
  exact ends.bind (.of_forall fun _ => if_pos nonzero)

theorem CandidatesResolve.skip (other : cur.data.isImmediate ≠ immediates)
    (later : CandidatesResolve gSymbols process immediates rest answer) :
    CandidatesResolve gSymbols process immediates (cur :: rest) answer := by
  cases immediates with
  | true =>
    intro index i dest caches stand again sound
    obtain ⟨caches', sound', ends⟩ := later index (i + 1) dest caches stand.tail nofun sound
    exact ⟨caches', sound', .congr
      (fun fuel => applyCandidates_skip _ _ _ _ _ _ (Bool.eq_false_of_not_eq_true other)) ends⟩
  | false =>
    intro index i dest caches stand again sound
    have fails := again rfl cur (List.mem_cons_self ..) (Bool.eq_true_of_not_eq_false other)
    exact pass (fun first => absurd first Bool.false_ne_true) fails later index i dest caches stand again sound

/-- A second pass, after one over immediates that has found nothing. -/
theorem MultipleResolves.other {candidates : List Entry}
    (first : CandidatesResolve gSymbols process true candidates none)
    (fail : ImmediatesFail gSymbols process candidates)
    (second : CandidatesResolve gSymbols process false candidates answer) :
    MultipleResolves gSymbols process candidates answer := by
  intro index dest caches stand sound
  obtain ⟨caches', sound', ends⟩ := first index 0 dest caches stand nofun sound
  obtain ⟨caches'', sound'', ends'⟩ := second index 0 dest caches' stand (fun _ => fail) sound'
  cases answer with
  | some address => exact ⟨caches'', sound'', ends.bind (ends'.bind (.of_forall fun _ => rfl))⟩
  | none => exact ends.bind (ends'.bind (.of_forall fun _ => rfl))

theorem MultipleResolves.immediate {candidates : List Entry} {address : Ptr}
    (first : CandidatesResolve gSymbols process true candidates (some address)) :
    MultipleResolves gSymbols process candidates (some address) := by
  intro index dest caches stand sound
  obtain ⟨caches', sound', ends⟩ := first index 0 dest caches stand nofun sound
  exact ⟨caches', sound', ends.bind (.of_forall fun _ => rfl)⟩

/-- A clean subject is resolved as it truly resolves. -/
theorem Clean.resolves (clean : Clean gSymbols process written subject answer) :
    Resolves gSymbols process written subject answer := by
  induction clean with
  | direct plain tame => exact entryResolves_direct plain tame
  | arithmetic clean nothing ih => exact entryResolves_arithmetic clean.judges ih nothing
  | readADRPGlobal clean reads leaves ih =>
    exact entryResolves_readADRPGlobal (Clean.readADRPGlobal clean reads leaves).judges ih reads leaves
  | single search here clean ih => exact .single search here ih
  | several search here clean ih =>
    exact ⟨_, search, fun abort out dest caches _ _ sound =>
      MultipleResolves.apply here clean.judges ih abort out dest sound⟩
  | nil => exact ⟨fun _ _ _ caches _ _ sound => ⟨caches, sound, .of_forall fun _ => rfl⟩, fun _ _ => nofun⟩
  | skip other clean ih =>
    refine ⟨ih.1.skip other, ?_⟩
    rintro rfl rfl candidate (_ | ⟨_, member⟩) immediate
    · exact absurd immediate other
    · exact ih.2 rfl rfl candidate member immediate
  | unresolved tried fails clean failsIh ih =>
    refine ⟨ih.1.pass (tried.trans ·) failsIh, ?_⟩
    rintro rfl rfl candidate (_ | ⟨_, member⟩) immediate
    · exact failsIh
    · exact ih.2 rfl rfl candidate member immediate
  | resolved tried clean nonzero ih => exact ⟨.found (tried.trans ·) ih nonzero, nofun⟩
  | immediate clean ih => exact .immediate ih.1
  | other fails clean failsIh ih => exact .other failsIh.1 (failsIh.2 rfl rfl) ih.1

/-! ## Lookups -/

section Lookups

variable (gSymbols process)

/-- The lookups that resolve as they should: of a name that there is no entry for, of one whose
resolution is clean, or of candidates of which none resolves when that may abort. -/
inductive Careful (symbol : DestSymbol) : Bool → Prop
  | missing {abort : Bool} (absent : lookupSymbolByHash gSymbols symbol.destHash = some (-1)) :
    Careful symbol abort
  | resolves {abort : Bool} {address : Ptr}
    (clean : Clean gSymbols process true (.hash symbol.destHash) (some address)) : Careful symbol abort
  | fails {idx : ℕ} {destNameMurmur : U32} {candidates : List Entry}
    (search : lookupSymbolByHash gSymbols symbol.destHash = some (idx : ℤ))
    (here : gSymbols[idx]? = some (.multiple destNameMurmur candidates))
    (clean : Clean gSymbols process true (.multiple candidates) none) : Careful symbol true

/-- The caches that lookups under a condition lead to; one that aborts ends the process. -/
inductive Reached (condition : DestSymbol → Bool → Prop) : Caches → Prop
  | initial : Reached condition (initialCaches gSymbols)
  | lookup {symbol : DestSymbol} {abort : Bool} {address : Ptr} {caches caches' : Caches}
    (before : Reached condition caches) (meets : condition symbol abort)
    (ends : Ends (fun fuel => lookupSymbolFromDb gSymbols process fuel symbol abort caches)
      (.ok (address, caches'))) : Reached condition caches'

/-- A lookup of candidates gives what they truly resolve to; without that it aborts if it may, or else
gives 0. -/
def FindsCandidate (symbol : DestSymbol) (abort : Bool) (caches : Caches) : Prop :=
  ∀ (idx : ℕ) destNameMurmur candidates answer,
    lookupSymbolByHash gSymbols symbol.destHash = some (idx : ℤ) →
    gSymbols[idx]? = some (.multiple destNameMurmur candidates) →
    Judges gSymbols process (.multiple candidates) answer →
    let compute fuel := lookupSymbolFromDb gSymbols process fuel symbol abort caches
    match answer, abort with
    | some address, _ => ∃ caches', Ends compute (.ok (address, caches'))
    | none, true => ∃ format arguments, Ends compute (.error (.abort format arguments))
    | none, false => ∃ caches', Ends compute (.ok (0, caches'))

/-- In every run of lookups under a condition, no wrong address is cached and each lookup of
candidates gives the right one. -/
def FindsCandidates (condition : DestSymbol → Bool → Prop) : Prop :=
  ∀ caches, Reached gSymbols process condition caches → Sound gSymbols process caches ∧
    ∀ symbol abort, condition symbol abort → FindsCandidate gSymbols process symbol abort caches

/-- Nothing is cached yet; 1 stands for a cache that is not used. -/
def Unanswered : Prop :=
  ∀ entry ∈ gSymbols, ∀ candidate ∈ entry.candidates,
    candidate.symbolPtrCache = 0 ∨ candidate.symbolPtrCache = 1

instance : Decidable (Unanswered gSymbols) :=
  inferInstanceAs (Decidable (∀ entry ∈ gSymbols, ∀ candidate ∈ entry.candidates, _ ∨ _))

end Lookups

/-- Sail emits no addresses. -/
theorem unanswered_of_generateSymbolDb (sorts : Sorts symbols sorted)
    (generated : generateSymbolDb sorted = some gSymbols) : Unanswered gSymbols := by
  intro entry there candidate listed
  obtain ⟨sym, -, inserted⟩ :=
    exists_of_mem_mapM ((generateSymbolDb_spec sorts generated).2.1 entry there).group listed
  have cache : candidate.symbolPtrCache = if sym.useCache then 0 else 1 := by
    rw [insertSymbol] at inserted
    cases given : sym.data <;>
      simp only [given, Option.map_eq_some_iff, Option.some.injEq] at inserted
    case dynamic | dataBlock => rw [← inserted]
    all_goals
      obtain ⟨_, -, rfl⟩ := inserted
      rfl
  rw [cache]
  cases sym.useCache with
  | true => exact .inl rfl
  | false => exact .inr rfl

theorem sound_initialCaches (unanswered : Unanswered gSymbols) :
    Sound gSymbols process (initialCaches gSymbols) := by
  intro location nonzero enabled
  have empty : initialCaches gSymbols location = 0 ∨ initialCaches gSymbols location = 1 := by
    rw [initialCaches]
    split
    · next entry here _ =>
      exact unanswered _ (List.mem_of_getElem? here) entry (List.mem_singleton_self entry)
    · next candidates i here _ =>
      cases listed : candidates[i]? with
      | none => exact .inl rfl
      | some candidate =>
        exact unanswered _ (List.mem_of_getElem? here) candidate (List.mem_of_getElem? listed)
    · exact .inl rfl
  exact (empty.elim nonzero enabled).elim

variable {symbol : DestSymbol} {abort : Bool}

theorem lookupSymbolFromDb_found {idx : ℕ}
    (search : lookupSymbolByHash gSymbols symbol.destHash = some (idx : ℤ)) (fuel : ℕ) :
    lookupSymbolFromDb gSymbols process fuel symbol abort caches = (do
      let (out, caches) ← apply gSymbols process fuel true idx (some 0) symbol caches
      match out with
      | none => .error .undefined
      | some address => .ok (address, caches)) := by
  have exists_ : (idx : ℤ) ≠ -1 := by omega
  rw [lookupSymbolFromDb, search]
  exact if_neg exists_

/-- A clean lookup gives its address. -/
theorem Clean.lookup {address : Ptr}
    (clean : Clean gSymbols process true (.hash symbol.destHash) (some address))
    (sound : Sound gSymbols process caches) : ∃ caches', Sound gSymbols process caches' ∧
      Ends (fun fuel => lookupSymbolFromDb gSymbols process fuel symbol abort caches)
        (.ok (address, caches')) := by
  obtain ⟨idx, search, applies⟩ := clean.resolves
  obtain ⟨caches', sound', ends⟩ := applies true (some 0) symbol caches nofun (fun _ => rfl) sound
  exact ⟨caches', sound', .congr (lookupSymbolFromDb_found search)
    (ends.bind (.of_forall fun _ => rfl))⟩

/-- Candidates of which none resolves abort. -/
theorem Clean.lookup_none {idx : ℕ} {destNameMurmur : U32} {candidates : List Entry}
    (search : lookupSymbolByHash gSymbols symbol.destHash = some (idx : ℤ))
    (here : gSymbols[idx]? = some (.multiple destNameMurmur candidates))
    (clean : Clean gSymbols process true (.multiple candidates) none)
    (sound : Sound gSymbols process caches) :
    Ends (fun fuel => lookupSymbolFromDb gSymbols process fuel symbol abort caches)
      (.error (symbol.noCandidate candidates.length)) := by
  have names : subject? gSymbols ⟨idx, none⟩ = some (.multiple candidates) := by rw [subject?, here]
  have uncached : ¬ (caches ⟨idx, none⟩ ≠ 1 ∧ caches ⟨idx, none⟩ ≠ 0) := fun cached =>
    nomatch sound.cached names clean.judges cached
  refine .congr (lookupSymbolFromDb_found search) (.of_succ ?_)
  filter_upwards [clean.resolves idx symbol caches (stand_multiple here) sound] with fuel aborts
  rw [apply, here]
  dsimp only
  rw [withCache, if_neg uncached]
  exact congrArg (fun result => result >>= _ >>= _) aborts

/-- One careful lookup. -/
theorem Careful.step (careful : Careful gSymbols process symbol abort)
    (sound : Sound gSymbols process caches) {address : Ptr}
    (ends : Ends (fun fuel => lookupSymbolFromDb gSymbols process fuel symbol abort caches)
      (.ok (address, caches'))) : Sound gSymbols process caches' := by
  cases careful with
  | missing absent =>
    obtain ⟨fuel, same⟩ := ends.exists
    simp only [lookupSymbolFromDb, absent, if_true] at same
    split at same
    · cases same
    · obtain ⟨-, rfl⟩ := Prod.mk.inj (Except.ok.inj same)
      exact sound
  | resolves clean =>
    obtain ⟨caches'', sound', ends'⟩ := clean.lookup sound
    obtain ⟨-, rfl⟩ := Prod.mk.inj (Except.ok.inj (ends.unique ends'))
    exact sound'
  | fails search here clean => cases ends.unique (clean.lookup_none search here sound)

theorem Careful.findsCandidate (careful : Careful gSymbols process symbol abort)
    (sound : Sound gSymbols process caches) :
    FindsCandidate gSymbols process symbol abort caches := by
  intro idx destNameMurmur candidates answer search here judged
  have truth := Judges.several search here judged
  cases careful with
  | missing absent =>
    have := Option.some.inj (absent.symm.trans search)
    omega
  | resolves clean =>
    obtain rfl := truth.unique clean.judges
    obtain ⟨caches', -, ends⟩ := clean.lookup sound
    exact ⟨caches', ends⟩
  | fails search' here' clean =>
    obtain rfl := Int.ofNat.inj (Option.some.inj (search.symm.trans search'))
    cases here.symm.trans here'
    obtain rfl := judged.unique clean.judges
    exact ⟨_, _, clean.lookup_none search here sound⟩

/-- Runs of careful lookups find the right candidates. -/
theorem findsCandidates_careful (unanswered : Unanswered gSymbols) :
    FindsCandidates gSymbols process (Careful gSymbols process) := by
  intro caches reached
  have sound : Sound gSymbols process caches := by
    induction reached with
    | initial => exact sound_initialCaches unanswered
    | lookup _ careful ends ih => exact careful.step ih ends
  exact ⟨sound, fun symbol abort careful => careful.findsCandidate sound⟩

/-- A module without the block, and a dynamic symbol at `0x8000`. -/
def fallbackProcess : Process where
  gModules := [some ⟨⟨0x1000, 0x100⟩, ⟨0x1100, 0x100⟩, ⟨0x1200, 0x100⟩, none, 0⟩]
  search := fun _ _ _ => 0
  lookupSymbol := fun _ _ _ => 0x8000
  read32 := fun _ => none
  read64 := fun _ => none
  readable := fun _ => false

/-- An immediate for other versions, before a dynamic symbol. -/
def versionedDb : List DbEntry := [.multiple 5 [⟨5, 0, .immediate 0b10 0 0x40⟩, ⟨5, 0, .dynamic 0 0 0⟩]]

/-- The dynamic symbol is found. -/
theorem findsCandidate_versioned : Careful versionedDb fallbackProcess (.murmur 5) true ∧
    FindsCandidate versionedDb fallbackProcess (.murmur 5) true (initialCaches versionedDb) := by
  have found : lookupSymbolByHash versionedDb 5 = some ((0 : ℕ) : ℤ) := by decide
  have immediate : Clean versionedDb fallbackProcess true (.entry (.immediate 0b10 0 0x40)) none :=
    .direct rfl ⟨_, rfl, by decide, by decide, .inr rfl⟩
  have dynamic : Clean versionedDb fallbackProcess true (.entry (.dynamic 0 0 0)) (some 0x8000) :=
    .direct rfl trivial
  have first : Clean versionedDb fallbackProcess true (.candidates true
      [⟨5, 0, .immediate 0b10 0 0x40⟩, ⟨5, 0, .dynamic 0 0 0⟩]) none :=
    .unresolved rfl immediate (.skip nofun .nil)
  have second : Clean versionedDb fallbackProcess true (.candidates false
      [⟨5, 0, .immediate 0b10 0 0x40⟩, ⟨5, 0, .dynamic 0 0 0⟩]) (some 0x8000) :=
    .skip nofun (.resolved rfl dynamic (by decide))
  have careful : Careful versionedDb fallbackProcess (.murmur 5) true :=
    .resolves (.several found rfl (.other first second))
  exact ⟨careful, (findsCandidates_careful (by decide) _ .initial).2 _ _ careful⟩

/-! ## The other lookups -/

/-- A data block that is not found, with an offset, before a dynamic symbol. -/
def fallbackDb : List DbEntry :=
  [.multiple 5 [⟨5, 0, .dataBlock [0xaa] [0xff] 0 0 0 0 0x10⟩, ⟨5, 0, .dynamic 0 0 0⟩]]

theorem judges_fallback : Judges fallbackDb fallbackProcess
    (.multiple [⟨5, 0, .dataBlock [0xaa] [0xff] 0 0 0 0 0x10⟩, ⟨5, 0, .dynamic 0 0 0⟩])
    (some 0x8000) :=
  .other (.skip nofun (.skip nofun .nil)) (.unresolved rfl (.direct rfl) (.resolved rfl (.direct rfl)))

/-- The offset alone is found, and it is cached. -/
theorem not_findsCandidates : ¬ ∀ gSymbols process, Unanswered gSymbols →
    FindsCandidates gSymbols process fun _ _ => True := by
  intro holds
  have unanswered : Unanswered fallbackDb := by decide
  obtain ⟨-, each⟩ := holds fallbackDb fallbackProcess unanswered _ .initial
  obtain ⟨caches', right⟩ := each (.murmur 5) true trivial 0 5 _ _ (by decide) rfl judges_fallback
  have wrong : ∃ caches', Ends (fun fuel => lookupSymbolFromDb fallbackDb fallbackProcess fuel
      (.murmur 5) true (initialCaches fallbackDb)) (.ok (0x10, caches')) :=
    ⟨_, .of_succ (.of_forall fun fuel => rfl)⟩
  obtain ⟨_, wrong⟩ := wrong
  have same := (Prod.mk.inj (Except.ok.inj (right.unique wrong))).1
  exact absurd same (by decide)

end Hakkun.Sail
