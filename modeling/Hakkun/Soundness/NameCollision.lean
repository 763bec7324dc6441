import Hakkun.Soundness.SymbolDb
import Hakkun.Soundness.Hash
import Hakkun.Model.Sail.Detail
import Mathlib.Data.List.Nodup

/-! # Names that share a hash

Neither the exported names nor the entries of the database carry more of a name than its 32-bit
hash. The first name with a hash is the only one that is exported, and the definitions of all names
with a hash are candidates of one entry. So names are kept apart exactly when their hashes are.
-/

namespace Hakkun.Sail

open Util

variable {symbols sorted : List Symbol} {entries : List DbEntry}

/-! ## Exported names -/

/-- The hashes and names gathered by `generateFakeLib`, of the symbols seen so far. -/
structure Exported (seen : List Symbol) (gathered : List U32 × List Name) : Prop where
  hashes : gathered.1 = gathered.2.map nameHash
  distinct : gathered.1.Nodup
  named : ∀ name ∈ gathered.2, ∃ sym ∈ seen, sym.name = name
  covered : ∀ sym ∈ seen, sym.hash ∈ gathered.1

/-- The loop body of `generateFakeLib`. -/
theorem exported_step {seen : List Symbol} {symbolHashes : List U32} {symbolNames : List Name}
    (exported : Exported seen (symbolHashes, symbolNames)) (symbol : Symbol) :
    let (added, symbolHashes) := addDestinationSymbolAndCheckDuplicate symbolHashes symbol.name
    Exported (seen ++ [symbol])
      (symbolHashes, if added then symbolNames ++ [symbol.name] else symbolNames) := by
  obtain ⟨hashes, distinct, named, covered⟩ := exported
  dsimp only at hashes distinct named covered
  have earlier (name) (there : name ∈ symbolNames) : ∃ sym ∈ seen ++ [symbol], sym.name = name := by
    obtain ⟨sym, member, same⟩ := named name there
    exact ⟨sym, List.mem_append_left _ member, same⟩
  by_cases known : nameHash symbol.name ∈ symbolHashes
  · simp only [addDestinationSymbolAndCheckDuplicate, if_pos known, Bool.false_eq_true, if_false]
    refine ⟨hashes, distinct, earlier, fun sym member => ?_⟩
    rcases List.mem_append.mp member with member | member
    · exact covered sym member
    · exact List.mem_singleton.mp member ▸ known
  · simp only [addDestinationSymbolAndCheckDuplicate, if_neg known, if_true]
    constructor
    · change symbolHashes ++ _ = (symbolNames ++ [symbol.name]).map nameHash
      rw [List.map_append, hashes]
      rfl
    · exact List.Nodup.append distinct (List.nodup_singleton _) fun hash there here =>
        known (List.mem_singleton.mp here ▸ there)
    · intro name member
      rcases List.mem_append.mp member with member | member
      · exact earlier name member
      · exact ⟨symbol, by simp, (List.mem_singleton.mp member).symm⟩
    · intro sym member
      rcases List.mem_append.mp member with member | member
      · exact List.mem_append_left _ (covered sym member)
      · exact List.mem_append_right _ (List.mem_singleton.mp member ▸ List.mem_singleton_self _)

/-- What is exported: one name for each hash. -/
theorem generateFakeLib_spec (symbols : List Symbol) :
    ∃ symbolHashes, Exported symbols (symbolHashes, generateFakeLib symbols) := by
  suffices run : ∀ (rest seen : List Symbol) (gathered : List U32 × List Name),
      Exported seen gathered → Exported (seen ++ rest) (rest.foldl (fun gathered symbol =>
        let found := addDestinationSymbolAndCheckDuplicate gathered.1 symbol.name
        (found.2, if found.1 then gathered.2 ++ [symbol.name] else gathered.2)) gathered) from
    ⟨_, run symbols [] ([], []) ⟨rfl, List.nodup_nil, by simp, by simp⟩⟩
  intro rest
  induction rest with
  | nil =>
    intro seen gathered exported
    rwa [List.append_nil]
  | cons symbol rest ih =>
    intro seen gathered exported
    have next := ih _ _ (exported_step exported symbol)
    rwa [List.append_assoc] at next

/-- Every name is exported exactly when no two names share a hash. -/
theorem exports_iff : (∀ sym ∈ symbols, sym.name ∈ generateFakeLib symbols) ↔
    ∀ sym ∈ symbols, ∀ other ∈ symbols, sym.hash = other.hash → sym.name = other.name := by
  obtain ⟨symbolHashes, hashes, distinct, named, covered⟩ := generateFakeLib_spec symbols
  constructor
  · intro exports sym member other member' same
    exact List.inj_on_of_nodup_map (hashes ▸ distinct) (exports sym member)
      (exports other member') same
  · intro apart sym member
    have known := covered sym member
    rw [show symbolHashes = (generateFakeLib symbols).map nameHash from hashes] at known
    obtain ⟨name, there, same⟩ := List.mem_map.mp known
    obtain ⟨other, member', rfl⟩ := named name there
    exact apart other member' sym member same ▸ there

/-! ## Looking names up -/

/-- The entry for a name holds a candidate that was emitted for a symbol. -/
def Yields (sorted : List Symbol) (entries : List DbEntry) (name : Name) (sym : Symbol) : Prop :=
  ∃ (index : ℕ) (entry : DbEntry) (candidate : Entry),
    lookupSymbolByHash entries (hashMurmur .aarch64 name 0) = some (index : ℤ) ∧
    entries[index]? = some entry ∧ insertSymbol sorted sym = some candidate ∧
    candidate ∈ entry.candidates

/-- Both names of any two symbols with different names are exported, and a lookup of one never
finds a definition of the other. -/
structure KeepsApart (symbols sorted : List Symbol) (entries : List DbEntry) : Prop where
  exports : ∀ sym ∈ symbols, sym.name ∈ generateFakeLib symbols
  apart : ∀ sym ∈ symbols, ∀ other ∈ symbols, sym.name ≠ other.name →
    ¬ Yields sorted entries sym.name other

/-- The hash that sail computes of a name is different from both hashes of any other name. -/
structure Distinguished (symbols : List Symbol) : Prop where
  sail : ∀ sym ∈ symbols, ∀ other ∈ symbols, sym.name ≠ other.name → sym.hash ≠ other.hash
  runtime : ∀ sym ∈ symbols, ∀ other ∈ symbols, sym.name ≠ other.name →
    hashMurmur .aarch64 sym.name 0 ≠ other.hash

theorem hash_of_yields {name : Name} {sym : Symbol} (each : ∀ entry ∈ entries, entry.Emitted sorted)
    (yields : Yields sorted entries name sym) : hashMurmur .aarch64 name 0 = sym.hash := by
  obtain ⟨index, entry, candidate, found, here, inserted, member⟩ := yields
  obtain ⟨-, key⟩ := get_of_binarySearch found (by omega)
  have group := (each entry (List.mem_of_getElem? here)).group
  rw [Int.toNat_natCast, here] at key
  have hash : entry.getNameMurmur32 = hashMurmur .aarch64 name 0 :=
    BitVec.eq_of_toNat_eq (Option.some.inj key)
  have origin : ∃ other ∈ hashGroup sorted entry.getNameMurmur32,
      insertSymbol sorted other = some candidate :=
    exists_of_mem_mapM group member
  obtain ⟨other, there, inserted'⟩ := origin
  rw [← hash, ← (mem_hashGroup.mp there).2, ← destNameMurmur_of_insertSymbol inserted,
    destNameMurmur_of_insertSymbol inserted']

/-- The entry for a hash is found wherever a symbol has it. -/
theorem exists_lookup (small : entries.length ≤ 2 ^ 30) (sorts : Sorts symbols sorted)
    (generated : generateSymbolDb sorted = some entries) {sym : Symbol} (member : sym ∈ symbols) :
    ∃ (index : ℕ) (entry : DbEntry) (candidate : Entry),
      lookupSymbolByHash entries sym.hash = some (index : ℤ) ∧ entries[index]? = some entry ∧
      insertSymbol sorted sym = some candidate ∧ candidate ∈ entry.candidates := by
  obtain ⟨ascending, each, found⟩ := generateSymbolDb_spec sorts generated
  obtain ⟨entry, there, hash⟩ := (found sym.hash).mpr ⟨sym, member, rfl⟩
  have keys : (entries.map fun entry => entry.getNameMurmur32.toNat).Pairwise (· < ·) :=
    List.pairwise_map.mpr ascending
  have key : sym.hash.toNat ∈ entries.map fun entry => entry.getNameMurmur32.toNat :=
    List.mem_map.mpr ⟨entry, there, by rw [hash]⟩
  obtain ⟨index, here, search⟩ :=
    binarySearch_of_mem (keys.imp le_of_lt) (by rwa [List.length_map]) key false
  simp only [List.getElem?_map, List.length_map] at here search
  obtain ⟨entry', here', same⟩ := Option.map_eq_some_iff.mp here
  have hash' : entry'.getNameMurmur32 = sym.hash := BitVec.eq_of_toNat_eq same
  have group := (each entry' (List.mem_of_getElem? here')).group
  have own : sym ∈ hashGroup sorted entry'.getNameMurmur32 :=
    mem_hashGroup.mpr ⟨sorts.perm.mem_iff.mpr member, hash'.symm⟩
  obtain ⟨candidate, listed, inserted⟩ := exists_mem_of_mapM group own
  exact ⟨index, entry', candidate, search, here', inserted, listed⟩

/-- A symbol of the first module, for its first version. -/
def dszz : Symbol := ⟨[0x64, 0x73, 0x7a, 0x7a], .immediate 0 0, [0], true⟩

def aabgz : Symbol := ⟨[0x61, 0x61, 0x62, 0x67, 0x7a], .immediate 0 0x10, [0], true⟩

theorem sorts_collision : Sorts [dszz, aabgz] [dszz, aabgz] := ⟨.refl _, by decide⟩

/-- What is emitted for both: one entry with two candidates. -/
def collisionEntries : List DbEntry :=
  [.multiple 0xded8fc72 [⟨0xded8fc72, 0, .immediate 1 0 0⟩, ⟨0xded8fc72, 0, .immediate 1 0 0x10⟩]]

theorem generateSymbolDb_collision :
    generateSymbolDb [dszz, aabgz] = some collisionEntries := by
  decide

end Hakkun.Sail
