import Hakkun.Machine.Core.Fuel
import Hakkun.Soundness.SymbolDb
import Hakkun.Model.Sail.Detail

/-! # Resolution of symbols that refer to each other

An entry that reads a global or adds to a symbol is resolved through another entry, which is looked
up by its hash. Sail checks that the other symbol exists and nothing else. Every lookup comes to an
end when the names in the symbol files do not refer to each other in a cycle; an entry that is
the only one with its hash and refers to itself is never resolved.
-/

namespace Hakkun.Sail

open Machine.Core Util

variable {symbols sorted : List Symbol} {entries : List DbEntry} {process : Process}

/-- The name that a definition refers to. -/
def SymbolData.target? : SymbolData → Option Name
  | .readADRPGlobal atSymbol _ => some atSymbol
  | .arithmetic symbolToAddTo _ => some symbolToAddTo
  | _ => none

/-- The hash that an entry is resolved through. -/
def EntryData.source? : EntryData → Option U32
  | .readADRPGlobal srcNameMurmur _ => some srcNameMurmur
  | .arithmetic srcNameMurmur _ => some srcNameMurmur
  | _ => none

/-- A symbol with one hash is defined by a symbol with the other. -/
def Refers (symbols : List Symbol) (hash source : U32) : Prop :=
  ∃ sym ∈ symbols, sym.hash = hash ∧ ∃ name, sym.data.target? = some name ∧ nameHash name = source

/-- An entry for one hash, or a candidate of it, is resolved through the other hash. -/
def DbRefers (entries : List DbEntry) (hash source : U32) : Prop :=
  ∃ entry ∈ entries, entry.getNameMurmur32 = hash ∧
    ∃ candidate ∈ entry.candidates, candidate.data.source? = some source

/-! ## References in the database -/

theorem source?_of_insertSymbol {sym : Symbol} {entry : Entry}
    (inserted : insertSymbol sorted sym = some entry) :
    entry.data.source? = sym.data.target?.map nameHash := by
  have found (name : Name) (hash : U32) (source : findSource sorted name = some hash) :
      hash = nameHash name := by
    obtain ⟨symbol, there, rfl⟩ := Option.map_eq_some_iff.mp source
    have same := List.find?_some there
    exact of_decide_eq_true same
  unfold insertSymbol at inserted
  cases given : sym.data <;>
    simp only [given, Option.map_eq_some_iff, Option.some.injEq] at inserted
  case immediate =>
    obtain ⟨_, -, rfl⟩ := inserted
    rfl
  case dynamic | dataBlock =>
    subst inserted
    rfl
  case readADRPGlobal | arithmetic =>
    obtain ⟨hash, source, rfl⟩ := inserted
    exact congrArg some (found _ hash source)

/-- The entries refer to each other as the symbols do. -/
theorem dbRefers_iff (sorts : Sorts symbols sorted)
    (generated : generateSymbolDb sorted = some entries) (hash source : U32) :
    DbRefers entries hash source ↔ Refers symbols hash source := by
  obtain ⟨-, each, covered⟩ := generateSymbolDb_spec sorts generated
  constructor
  · rintro ⟨entry, there, rfl, candidate, listed, through⟩
    obtain ⟨sym, grouped, inserted⟩ := exists_of_mem_mapM (each entry there).group listed
    obtain ⟨member, same⟩ := mem_hashGroup.mp grouped
    rw [source?_of_insertSymbol inserted, Option.map_eq_some_iff] at through
    exact ⟨sym, sorts.perm.mem_iff.mp member, same, through⟩
  · rintro ⟨sym, member, same, through⟩
    obtain ⟨entry, there, hash⟩ := (covered hash).mpr ⟨sym, member, same⟩
    have grouped : sym ∈ hashGroup sorted entry.getNameMurmur32 :=
      mem_hashGroup.mpr ⟨sorts.perm.mem_iff.mpr member, same.trans hash.symm⟩
    obtain ⟨candidate, listed, inserted⟩ := exists_mem_of_mapM (each entry there).group grouped
    refine ⟨entry, there, hash, candidate, listed, ?_⟩
    rw [source?_of_insertSymbol inserted, Option.map_eq_some_iff]
    exact through

/-! ## One entry -/

/-- A result other than the end of the fuel. -/
def Finishes {A : Type} (result : Except Fault A) : Prop := result ≠ .error .unfinished

@[simp] theorem finishes_ok {A : Type} (value : A) : Finishes (.ok value) := nofun

@[simp] theorem finishes_abort {A : Type} (format : String) (arguments : List Argument) :
    Finishes (.error (.abort format arguments) : Except Fault A) := nofun

@[simp] theorem finishes_undefined {A : Type} : Finishes (.error .undefined : Except Fault A) := nofun

@[simp] theorem finishes_unresolved {A : Type} (dest : DestSymbol) (kind : String) :
    Finishes (.error (dest.unresolved kind) : Except Fault A) := nofun

theorem Finishes.bind {A B : Type} {result : Except Fault A} {next : A → Except Fault B}
    (first : Finishes result) (later : ∀ value, Finishes (next value)) :
    Finishes (result >>= next) := by
  cases result with
  | error fault => exact fun same => first (congrArg Except.error (Except.error.inj same))
  | ok value => exact later value

theorem Finishes.ite {A : Type} {condition : Prop} [Decidable condition]
    {first second : Except Fault A} (yes : Finishes first) (no : Finishes second) :
    Finishes (if condition then first else second) := by
  split <;> assumption

theorem finishes_isVersion (gModules : List (Option LoadedModule)) (versionsBitset : U64)
    (moduleIdx : U32) : Finishes (isVersion gModules versionsBitset moduleIdx) := by
  rw [isVersion]
  split
  · exact .ite (finishes_ok _) finishes_undefined
  · exact finishes_undefined

theorem finishes_applyImmediateSymbol (abort : Bool) (versionsBitset : U64)
    (moduleIdx offsetIntoModule : U32) (out : Option Ptr) (dest : DestSymbol) :
    Finishes (applyImmediateSymbol process abort versionsBitset moduleIdx offsetIntoModule out dest) := by
  rw [applyImmediateSymbol]
  split
  · exact finishes_undefined
  · exact finishes_abort _ _
  · refine (finishes_isVersion _ _ _).bind fun matching => ?_
    exact .ite (finishes_ok _) (.ite (finishes_unresolved _ _) (finishes_ok _))

theorem finishes_applyDynamicSymbol (abort : Bool) (lookupNameRtldHash : U64)
    (lookupNameMurmur lookupNameDjb2 : U32) (dest : DestSymbol) :
    Finishes (applyDynamicSymbol process abort lookupNameRtldHash lookupNameMurmur lookupNameDjb2
      dest) :=
  .ite (finishes_unresolved _ _) (finishes_ok _)

theorem finishes_applyDataBlockSymbol (abort : Bool) (data dataMask : List (BitVec 8))
    (moduleIdx versionBoundaryType versionBoundary sectionLimit : BitVec 8)
    (offsetToFoundBlock : U32) (out : Option Ptr) (dest : DestSymbol) :
    Finishes (applyDataBlockSymbol process abort data dataMask moduleIdx versionBoundaryType
      versionBoundary sectionLimit offsetToFoundBlock out dest) := by
  rw [applyDataBlockSymbol]
  split
  · exact finishes_undefined
  · exact finishes_abort _ _
  · refine .ite (finishes_ok _) (.ite (finishes_ok _) ?_)
    exact .ite (finishes_unresolved _ _) (finishes_ok _)

theorem finishes_readADRPGlobal (at_ : Ptr) (loInstrOffset : U32) :
    Finishes (readADRPGlobal process at_ loInstrOffset) := by
  rw [readADRPGlobal]
  split
  · exact finishes_undefined
  · refine .ite (finishes_ok _) (.ite (finishes_ok _) ?_)
    dsimp only
    split
    · exact finishes_undefined
    · refine .ite (.ite ?_ (finishes_ok _)) (.ite (finishes_ok _) (finishes_ok _))
      split
      · exact finishes_undefined
      · exact finishes_ok _

theorem Finishes.withCache {location : Location} {caches : Caches}
    {body : Except Fault (Option Ptr × Caches)} (finishes : Finishes body) :
    Finishes (withCache location caches body) := by
  rw [Sail.withCache]
  refine .ite (finishes_ok _) (finishes.bind fun (out, caches) => ?_)
  refine .ite ?_ (finishes_ok _)
  split
  · exact finishes_undefined
  · exact finishes_ok _

/-! ## Entries that are resolved through others -/

/-- The source with a hash is resolved to an end, whatever is cached. -/
def Source.FinishesOn (source : Source) (hash : U32) : Prop :=
  ∀ abort dest caches, Finishes (source abort hash dest caches)

variable {source : Source}

theorem finishes_applyEntry (abort : Bool) {entry : Entry}
    (through : ∀ hash, entry.data.source? = some hash → source.FinishesOn hash) (location : Location)
    (out : Option Ptr) (dest : DestSymbol) (caches : Caches) :
    Finishes (applyEntry process source abort entry location out dest caches) := by
  refine Finishes.withCache ?_
  cases data : entry.data with
  | immediate versionsBitset moduleIdx offsetIntoModule =>
    exact (finishes_applyImmediateSymbol _ _ _ _ _ _).bind fun _ => finishes_ok _
  | dynamic lookupNameRtldHash lookupNameMurmur lookupNameDjb2 =>
    exact (finishes_applyDynamicSymbol _ _ _ _ _).bind fun _ => finishes_ok _
  | dataBlock data dataMask moduleIdx versionBoundaryType versionBoundary sectionLimit offset =>
    exact (finishes_applyDataBlockSymbol _ _ _ _ _ _ _ _ _ _).bind fun _ => finishes_ok _
  | readADRPGlobal srcNameMurmur offsetToLoInstr =>
    refine (through srcNameMurmur (by rw [data]; rfl) _ _ _).bind fun (at_, caches) => ?_
    cases at_ with
    | none => exact finishes_undefined
    | some at_ =>
      refine (finishes_readADRPGlobal at_ offsetToLoInstr).bind fun value => ?_
      cases value with
      | some value => exact finishes_ok _
      | none => exact .ite (finishes_abort _ _) (finishes_ok _)
  | arithmetic srcNameMurmur addend =>
    refine (through srcNameMurmur (by rw [data]; rfl) _ _ _).bind fun (at_, caches) => ?_
    cases at_ with
    | none => exact finishes_undefined
    | some at_ => exact finishes_ok _

theorem finishes_applyCandidates (index : ℕ) (immediates : Bool) (dest : DestSymbol)
    (candidates : List Entry)
    (through : ∀ candidate ∈ candidates, ∀ hash, candidate.data.source? = some hash →
      source.FinishesOn hash) (i : ℕ) (out : Option Ptr) (caches : Caches) :
    Finishes (applyCandidates process source index immediates dest candidates i out caches) := by
  induction candidates generalizing i out caches with
  | nil => exact finishes_ok _
  | cons cur rest ih =>
    have later := ih fun candidate member => through candidate (List.mem_cons_of_mem _ member)
    rw [applyCandidates]
    refine .ite (later _ _ _) ?_
    refine (finishes_applyEntry false (through cur (List.mem_cons_self ..)) _ _ _ _).bind
      fun (out, caches) => ?_
    cases out with
    | none => exact finishes_undefined
    | some address => exact .ite (finishes_ok _) (later _ _ _)

theorem finishes_applyMultipleCandidateSymbol (index : ℕ) {candidates : List Entry}
    (through : ∀ candidate ∈ candidates, ∀ hash, candidate.data.source? = some hash →
      source.FinishesOn hash) (dest : DestSymbol) (caches : Caches) :
    Finishes (applyMultipleCandidateSymbol process source index candidates dest caches) := by
  refine (finishes_applyCandidates index true dest candidates through _ _ _).bind
    fun (found, out, caches) => ?_
  refine .ite (finishes_ok _) ?_
  refine (finishes_applyCandidates index false dest candidates through _ _ _).bind
    fun (found, out, caches) => ?_
  exact .ite (finishes_ok _) (finishes_abort _ _)

/-! ## The whole database -/

/-- The entries with a hash are applied to an end. -/
def AppliesIn (entries : List DbEntry) (process : Process) (fuel : ℕ) (hash : U32) : Prop :=
  ∀ (index : ℕ) (entry : DbEntry), entries[index]? = some entry → entry.getNameMurmur32 = hash →
    ∀ abort out dest caches, Finishes (apply entries process fuel abort index out dest caches)

/-- One more level of applications. -/
theorem appliesIn_succ (fuel : ℕ) (hash : U32)
    (through : ∀ source, DbRefers entries hash source → AppliesIn entries process fuel source) :
    AppliesIn entries process (fuel + 1) hash := by
  intro index entry here same abort out dest caches
  have resolved (candidate) (listed : candidate ∈ entry.candidates) (srcNameMurmur : U32)
      (refers : candidate.data.source? = some srcNameMurmur) :
      (applySource entries (apply entries process fuel)).FinishesOn srcNameMurmur := by
    intro abort dest caches
    have referred : DbRefers entries hash srcNameMurmur :=
      ⟨entry, List.mem_of_getElem? here, same, candidate, listed, refers⟩
    rw [applySource]
    cases search : lookupSymbolByHash entries srcNameMurmur with
    | none => exact finishes_undefined
    | some idx =>
      by_cases missing : idx = -1
      · simp only [if_pos missing, finishes_abort]
      · simp only [if_neg missing]
        obtain ⟨-, key⟩ := get_of_binarySearch search missing
        obtain ⟨entry', here', same'⟩ := Option.map_eq_some_iff.mp key
        exact through _ referred idx.toNat entry' here' (BitVec.eq_of_toNat_eq same') _ _ _ _
  rw [apply, here]
  cases entry with
  | single entry =>
    exact finishes_applyEntry abort (resolved entry (List.mem_singleton_self _)) _ _ _ _
  | multiple _ candidates =>
    exact .withCache (finishes_applyMultipleCandidateSymbol index resolved dest caches)

/-- Lookups of an entry come to an end, and the entries do not refer to each other in a cycle. -/
structure Terminating (entries : List DbEntry) : Prop where
  ends : ∀ process symbol abort caches, ∃ enough, ∀ fuel ≥ enough,
    Finishes (lookupSymbolFromDb entries process fuel symbol abort caches)
  acyclic : ∀ hash, ¬ Relation.TransGen (DbRefers entries) hash hash

/-- No lookup of a cycle's symbol comes to an end where each entry of the cycle is for one definition:
every hash of a set is found, and resolved through another one of the set. -/
theorem apply_unfinished {cycle : U32 → Prop} {caches : Caches}
    (each : ∀ hash, cycle hash → ∃ (index : ℕ) (entry : Entry) (source : U32),
      lookupSymbolByHash entries hash = some (index : ℤ) ∧ entries[index]? = some (.single entry) ∧
      entry.data.source? = some source ∧ cycle source ∧
      (caches ⟨index, none⟩ = 0 ∨ caches ⟨index, none⟩ = 1))
    (fuel : ℕ) {hash : U32} (member : cycle hash) {index : ℕ}
    (found : lookupSymbolByHash entries hash = some (index : ℤ)) (abort : Bool) (out : Option Ptr)
    (dest : DestSymbol) :
    apply entries process fuel abort index out dest caches = .error .unfinished := by
  induction fuel generalizing hash index abort out dest with
  | zero => rfl
  | succ fuel ih =>
    obtain ⟨index', entry, source, found', here, refers, again, fresh⟩ := each hash member
    obtain rfl : index = index' := by rw [found] at found'; exact_mod_cast Option.some.inj found'
    obtain ⟨next, _, _, search, -⟩ := each source again
    have uncached : ¬ (caches ⟨index, none⟩ ≠ 1 ∧ caches ⟨index, none⟩ ≠ 0) := by tauto
    have deeper := fun abort out dest => ih again search abort out dest
    rw [apply, here]
    simp only [applyEntry, withCache, if_neg uncached]
    cases data : entry.data with
    | immediate | dynamic | dataBlock => rw [data] at refers; cases refers
    | readADRPGlobal | arithmetic =>
      rw [data] at refers
      obtain rfl := Option.some.inj refers
      simp only [applySource, search, show ((next : ℕ) : ℤ) ≠ -1 by omega, if_false,
        Int.toNat_natCast, deeper]
      rfl

theorem finite_hashes : Finite U32 :=
  Finite.of_injective BitVec.toFin fun _ _ same => BitVec.eq_of_toFin_eq same

/-- `foo = foo + 0x0`. -/
def foo : Symbol := ⟨[0x66, 0x6f, 0x6f], .arithmetic [0x66, 0x6f, 0x6f] 0, [], true⟩

/-- What is emitted for it. -/
def fooEntries : List DbEntry := [.single ⟨foo.hash, 0, .arithmetic foo.hash 0⟩]

/-- A lone symbol that refers to nothing. -/
def lone : Symbol := ⟨[0x66, 0x6f, 0x6f], .dynamic [0x66, 0x6f, 0x6f], [], true⟩

end Hakkun.Sail
