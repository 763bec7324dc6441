import Hakkun.Math.FirstDifference
import Hakkun.Model.Sail.Detail
import Hakkun.Soundness.BinarySearch
import Hakkun.Soundness.Hash
import Hakkun.Soundness.MurmurWords
import Hakkun.Soundness.NameCollision
import Mathlib.Data.List.ProdSigma
import Mathlib.Data.List.Perm.Subperm
import Mathlib.Tactic.IntervalCases

/-! # Emission and lookup of the symbol database

What sail emits is ascending by hash and holds each definition once, in the group of its hash, for
any number of symbols. The runtime searches it with signed indices of 32 bits. As long as there are
at most `2 ^ 30` hashes, it finds the entries of the hashes that are there and no others; among more
hashes the search for the last one adds two indices that are too large, or starts with a negative
one.
-/

namespace Hakkun.Sail

open Util

variable {symbols sorted : List Symbol} {entries : List DbEntry}

/-- A lookup comes to an end. It finds something if a definition has the hash, and it is the entry
for that hash then. -/
def LooksUp (symbols : List Symbol) (entries : List DbEntry) (hash : U32) : Prop :=
  ∃ index, lookupSymbolByHash entries hash = some index ∧
    (index ≠ -1 ↔ ∃ sym ∈ symbols, sym.hash = hash) ∧
    (index ≠ -1 → ∃ (i : ℕ) (entry : DbEntry), index = i ∧ entries[i]? = some entry ∧
      entry.getNameMurmur32 = hash)

/-- The emitted database and what the runtime finds in it. -/
structure DbAgrees (symbols sorted : List Symbol) (entries : List DbEntry) : Prop where
  ascending : entries.Pairwise fun a b => a.getNameMurmur32.toNat < b.getNameMurmur32.toNat
  number : entries.length = (symbols.map Symbol.hash).dedup.length
  groups : ∀ entry ∈ entries, entry.Emitted sorted
  /-- All candidates together are what each of the definitions gives, in some order. -/
  once : ∃ definitions : List Symbol, definitions.Perm symbols ∧
    definitions.mapM (insertSymbol sorted) = some (entries.flatMap DbEntry.candidates)
  lookup : ∀ hash, LooksUp symbols entries hash

/-! ## Emission -/

/-- The groups of all keys are the whole list. -/
theorem perm_flatMap_filter {A K : Type} [DecidableEq K] {key : A → K} {keys : List K}
    (distinct : keys.Nodup) {given : List A} (covers : ∀ a ∈ given, key a ∈ keys) :
    (keys.flatMap fun k => given.filter fun a => key a = k).Perm given := by
  induction keys generalizing given with
  | nil =>
    obtain rfl : given = [] := List.eq_nil_iff_forall_not_mem.mpr fun a member =>
      List.not_mem_nil (covers a member)
    exact .refl _
  | cons k keys ih =>
    obtain ⟨fresh, distinct⟩ := List.nodup_cons.mp distinct
    have others : (keys.flatMap fun k => given.filter fun a => key a = k) =
        keys.flatMap fun k' => (given.filter fun a => !decide (key a = k)).filter fun a =>
          key a = k' := by
      apply List.flatMap_congr
      intro k' member
      rw [List.filter_filter]
      apply List.filter_congr
      intro a _
      have : key a = k' → key a ≠ k := by
        rintro rfl rfl
        exact fresh member
      grind
    rw [List.flatMap_cons, others]
    refine ((ih distinct fun a member => ?_).append_left _).trans (List.filter_append_perm _ given)
    obtain ⟨there, other⟩ := List.mem_filter.mp member
    have different : key a ≠ k := by simpa using other
    exact List.mem_of_ne_of_mem different (covers a there)

theorem mapM_flatMap {A B E : Type} {f : A → Option B} {group : E → List A}
    {results : E → List B} {keys : List E}
    (each : ∀ e ∈ keys, (group e).mapM f = some (results e)) :
    (keys.flatMap group).mapM f = some (keys.flatMap results) := by
  induction keys with
  | nil => rfl
  | cons e keys ih =>
    rw [List.flatMap_cons, List.flatMap_cons, List.mapM_append, each e (List.mem_cons_self ..),
      ih fun e member => each e (List.mem_cons_of_mem _ member)]
    rfl

theorem exists_mapM {A B : Type} {f : A → Option B} {given : List A}
    (each : ∀ a ∈ given, ∃ b, f a = some b) : ∃ results, given.mapM f = some results := by
  induction given with
  | nil => exact ⟨[], rfl⟩
  | cons a given ih =>
    obtain ⟨b, here⟩ := each a (List.mem_cons_self ..)
    obtain ⟨results, later⟩ := ih fun other member => each other (List.mem_cons_of_mem _ member)
    rw [List.mapM_cons, here, later]
    exact ⟨b :: results, rfl⟩

/-- The hashes of the entries are those of the symbols, each once. -/
theorem perm_hashes (sorts : Sorts symbols sorted)
    (generated : generateSymbolDb sorted = some entries) :
    (entries.map DbEntry.getNameMurmur32).Perm (symbols.map Symbol.hash).dedup := by
  obtain ⟨ascending, -, found⟩ := generateSymbolDb_spec sorts generated
  have distinct : (entries.map DbEntry.getNameMurmur32).Nodup := by
    rw [List.Nodup, List.pairwise_map]
    exact ascending.imp fun less same => less.ne (congrArg BitVec.toNat same)
  rw [List.perm_ext_iff_of_nodup distinct (List.nodup_dedup _)]
  intro hash
  rw [List.mem_dedup, List.mem_map, List.mem_map]
  exact found hash

theorem emits_once (sorts : Sorts symbols sorted)
    (generated : generateSymbolDb sorted = some entries) :
    ∃ definitions : List Symbol, definitions.Perm symbols ∧
      definitions.mapM (insertSymbol sorted) = some (entries.flatMap DbEntry.candidates) := by
  obtain ⟨-, each, -⟩ := generateSymbolDb_spec sorts generated
  have hashes := perm_hashes sorts generated
  refine ⟨entries.flatMap fun entry => hashGroup sorted entry.getNameMurmur32, ?_,
    mapM_flatMap fun entry member => (each entry member).group⟩
  have covers : ∀ sym ∈ sorted, sym.hash ∈ entries.map DbEntry.getNameMurmur32 := by
    intro sym member
    rw [hashes.mem_iff, List.mem_dedup]
    exact List.mem_map_of_mem (sorts.perm.mem_iff.mp member)
  have groups := perm_flatMap_filter (hashes.nodup_iff.mpr (List.nodup_dedup _)) covers
  rw [List.flatMap_map] at groups
  exact groups.trans sorts.perm

/-! ## Lookup -/

/-- The hashes of the entries as the search compares them. -/
def DbEntry.keys (entries : List DbEntry) : List ℕ :=
  entries.map fun entry => entry.getNameMurmur32.toNat

theorem lookupSymbolByHash_eq (hash : U32) : lookupSymbolByHash entries hash =
    binarySearch ((DbEntry.keys entries)[·]?) 0 (toS32 ((DbEntry.keys entries).length - 1))
      hash.toNat false := by
  simp only [lookupSymbolByHash, DbEntry.keys, List.getElem?_map, List.length_map]

theorem mem_keys (sorts : Sorts symbols sorted)
    (generated : generateSymbolDb sorted = some entries) {hash : U32} :
    hash.toNat ∈ DbEntry.keys entries ↔ ∃ sym ∈ symbols, sym.hash = hash := by
  obtain ⟨-, -, found⟩ := generateSymbolDb_spec sorts generated
  rw [← found hash, DbEntry.keys, List.mem_map]
  simp only [BitVec.toNat_inj]

/-- Few entries are found as they should be. -/
theorem looksUp_of_few (sorts : Sorts symbols sorted)
    (generated : generateSymbolDb sorted = some entries) (few : entries.length ≤ 2 ^ 30)
    (hash : U32) : LooksUp symbols entries hash := by
  obtain ⟨ascending, -, -⟩ := generateSymbolDb_spec sorts generated
  have keys : (DbEntry.keys entries).Pairwise (· < ·) := List.pairwise_map.mpr ascending
  have short : (DbEntry.keys entries).length ≤ 2 ^ 30 := by rwa [DbEntry.keys, List.length_map]
  obtain ⟨index, search, located⟩ :=
    located_of_sorted _ (keys.imp le_of_lt) short hash.toNat false
  rw [← lookupSymbolByHash_eq] at search
  refine ⟨index, search, ?_⟩
  rw [Located, ← mem_keys sorts generated] at *
  by_cases member : hash.toNat ∈ DbEntry.keys entries
  · rw [if_pos member] at located
    obtain ⟨i, rfl, here⟩ := located
    rw [DbEntry.keys, List.getElem?_map] at here
    obtain ⟨entry, there, same⟩ := Option.map_eq_some_iff.mp here
    have hash' : entry.getNameMurmur32 = hash := BitVec.eq_of_toNat_eq same
    exact ⟨iff_of_true (by omega) member, fun _ => ⟨i, entry, rfl, there, hash'⟩⟩
  · rw [if_neg member, if_neg Bool.false_ne_true] at located
    exact ⟨iff_of_false (not_not_intro located) member, fun hit => absurd located hit⟩

/-- There are no more entries than hashes. -/
theorem length_entries_le (sorts : Sorts symbols sorted)
    (generated : generateSymbolDb sorted = some entries) : entries.length ≤ 2 ^ 32 := by
  obtain ⟨ascending, -, -⟩ := generateSymbolDb_spec sorts generated
  have keys : (DbEntry.keys entries).Pairwise (· < ·) := List.pairwise_map.mpr ascending
  have inside : DbEntry.keys entries ⊆ List.range (2 ^ 32) := by
    intro key member
    obtain ⟨entry, -, rfl⟩ := List.mem_map.mp member
    exact List.mem_range.mpr entry.getNameMurmur32.isLt
  have bound := (List.subperm_of_subset (keys.imp ne_of_lt) inside).length_le
  rwa [DbEntry.keys, List.length_map, List.length_range] at bound

/-- A lookup that finds every definition has few hashes to search. -/
theorem DbAgrees.few (agrees : DbAgrees symbols sorted entries) (sorts : Sorts symbols sorted)
    (generated : generateSymbolDb sorted = some entries) :
    (symbols.map Symbol.hash).dedup.length ≤ 2 ^ 30 := by
  rw [← agrees.number]
  by_contra many
  have keys : (DbEntry.keys entries).Pairwise (· < ·) := List.pairwise_map.mpr agrees.ascending
  have length : (DbEntry.keys entries).length = entries.length := List.length_map ..
  obtain ⟨key, member, missed⟩ := not_found_of_large keys (by omega)
    (length ▸ length_entries_le sorts generated)
  obtain ⟨entry, -, rfl⟩ := List.mem_map.mp member
  obtain ⟨index, search, hits, finds⟩ := agrees.lookup entry.getNameMurmur32
  obtain ⟨i, -, rfl, -⟩ := finds (hits.mpr ((mem_keys sorts generated).mp member))
  exact missed i (lookupSymbolByHash_eq _ ▸ search)

/-- A name that is looked up as it is. -/
def letter : Symbol := ⟨[0x61], .dynamic [0x61], [], true⟩

/-- The loop comes to an end if every symbol can be emitted. -/
theorem exists_emitSymbols {rest : List Symbol} {cleared : List U32}
    (inserts : ∀ sym ∈ sorted, ∃ entry, insertSymbol sorted sym = some entry)
    (suffix : rest <:+ sorted) : ∃ entries, emitSymbols sorted rest cleared = some entries := by
  induction rest generalizing cleared with
  | nil => exact ⟨[], rfl⟩
  | cons sym rest ih =>
    have later : rest <:+ sorted := (List.suffix_cons sym rest).trans suffix
    obtain ⟨entry, inserted⟩ := inserts sym (suffix.subset (List.mem_cons_self ..))
    have each : ∀ other ∈ hashGroup sorted sym.hash, ∃ entry,
        insertSymbol sorted other = some entry := fun other member =>
      inserts other (mem_hashGroup.mp member).1
    obtain ⟨candidates, all⟩ := exists_mapM each
    obtain ⟨entries, emitted⟩ : ∃ entries, emitSymbols sorted rest cleared = some entries :=
      ih later
    obtain ⟨entries', emitted'⟩ : ∃ entries, emitSymbols sorted rest (sym.hash :: cleared) =
      some entries := ih later
    rw [emitSymbols]
    by_cases seen : sym.hash ∈ cleared
    · exact ⟨entries, by simp [seen, emitted]⟩
    · simp only [if_neg seen, all, inserted, emitted, emitted']
      split_ifs
      · exact ⟨_, rfl⟩
      · exact ⟨_, rfl⟩
      · exact ⟨_, rfl⟩

/-- Symbols that can all be emitted are accepted. -/
theorem exists_generateSymbolDb (symbols : List Symbol)
    (inserts : ∀ sorted, ∀ sym ∈ symbols, ∃ entry, insertSymbol sorted sym = some entry) :
    ∃ sorted entries, Sorts symbols sorted ∧ generateSymbolDb sorted = some entries := by
  let below (a b : Symbol) : Bool := decide (a.hash.toNat ≤ b.hash.toNat)
  have transitive (a b c : Symbol) (low : below a b = true) (high : below b c = true) :
      below a c = true :=
    decide_eq_true ((of_decide_eq_true low).trans (of_decide_eq_true high))
  have total (a b : Symbol) : (below a b || below b a) = true := by
    simpa [below] using Nat.le_total ..
  have ordered := List.pairwise_mergeSort transitive total symbols
  have sorts : Sorts symbols (symbols.mergeSort below) :=
    ⟨List.mergeSort_perm .., ordered.imp of_decide_eq_true⟩
  obtain ⟨entries, emitted⟩ := exists_emitSymbols
    (fun sym member => inserts _ sym (sorts.perm.mem_iff.mp member)) (List.suffix_refl _)
  exact ⟨_, entries, sorts, emitted⟩

/-! ## More names than the search can take -/

section Crowd

open Math Murmur Murmur.HashMurmur32Impl

/-- The word that sail joins four bytes to. -/
def wordOf (bytes : List CChar) : U32 := joinBytes .host 32 4 (readDefault bytes)

/-- The hash of a name of eight bytes. -/
theorem nameHash_eight (x y z t a b c d : CChar) : nameHash [x, y, z, t, a, b, c, d] =
    finalMix (mix (mix 0 (wordOf [x, y, z, t])) (wordOf [a, b, c, d]) ^^^ 8) := by
  have first : Murmur.getBlock .host (readDefault [x, y, z, t, a, b, c, d]) 0 =
      wordOf [x, y, z, t] := by
    rw [getBlock_eq]
    exact joinBytes_congr fun k low => by interval_cases k <;> rfl
  have second : Murmur.getBlock .host (readDefault [x, y, z, t, a, b, c, d]) 1 =
      wordOf [a, b, c, d] := by
    rw [getBlock_eq]
    exact joinBytes_congr fun k low => by interval_cases k <;> rfl
  have eight : Platform.host.fast 8 = 8 := fast_of_lt (by decide) (by decide)
  rw [← first, ← second, nameHash, Sail.hashMurmur,
    show [x, y, z, t, a, b, c, d].length = 8 from rfl, eight]
  rfl

theorem finalMix_injective : Function.Injective finalMix := by
  have first : Function.Injective fun x : U32 => x * 0x85ebca6b :=
    mul_injective (d := 0xa5cb9243) rfl
  have second : Function.Injective fun x : U32 => x * 0xc2b2ae35 :=
    mul_injective (d := 0x7ed1b41d) rfl
  exact (xorShift_injective (by decide)).comp (second.comp ((xorShift_injective (by decide)).comp
    (first.comp (xorShift_injective (by decide)))))

/-- Four bytes of which only the last one may have a sign. -/
structure PlainBlock (bytes : List CChar) : Prop where
  length : bytes.length = 4
  clean : ∀ k < 3, (readDefault bytes k).msb = false

variable {bytes bytes' : List CChar}

theorem PlainBlock.getLsbD_wordOf (plain : PlainBlock bytes) {k bit : ℕ} (inside : k < 4)
    (low : bit < 8) : (wordOf bytes).getLsbD (8 * k + bit) = (readDefault bytes k).getLsbD bit :=
  getLsbD_joinBytes_byte (le_refl 32) inside low fun _ j below => plain.clean j (by omega)

theorem PlainBlock.injective (plain : PlainBlock bytes) (plain' : PlainBlock bytes')
    (same : wordOf bytes = wordOf bytes') : bytes = bytes' := by
  apply List.ext_getElem (plain.length.trans plain'.length.symm)
  intro k inside inside'
  have four : k < 4 := plain.length ▸ inside
  have byte : readDefault bytes k = readDefault bytes' k := by
    apply BitVec.eq_of_getLsbD_eq
    intro bit low
    rw [← plain.getLsbD_wordOf four low, same, plain'.getLsbD_wordOf four low]
  rwa [readDefault, readDefault, List.getD_eq_getElem _ _ inside,
    List.getD_eq_getElem _ _ inside'] at byte

/-- The words of two such names do not differ first at the sign of one of the first bytes. -/
theorem PlainBlock.not_firstDiffers (plain : PlainBlock bytes) (plain' : PlainBlock bytes') {k : ℕ}
    (low : k < 3) : ¬ FirstDiffers (8 * k + 7) (wordOf bytes) (wordOf bytes') := by
  intro first
  apply first.getLsbD_ne
  have clear {bytes : List CChar} (plain : PlainBlock bytes) :
      (wordOf bytes).getLsbD (8 * k + 7) = false := by
    rw [plain.getLsbD_wordOf (by omega) (by decide), ← plain.clean k low,
      BitVec.msb_eq_getLsbD_last]
  rw [clear plain, clear plain']

/-- What is mixed into two states differs first where the states do, if the states that are mixed
are equal. -/
theorem firstDiffers_of_mix_eq {h h' k k' : U32} {m : ℕ} (inside : m + 15 < 32)
    (states : FirstDiffers (m + 15) (h ^^^ h') 0) (same : mix h k = mix h' k') :
    FirstDiffers m k k' := by
  have mixed : h ^^^ rotateLeft32 (k * c1) 15 * c2 = h' ^^^ rotateLeft32 (k' * c1) 15 * c2 :=
    round_injective same
  have distance := xor_exchange mixed
  have moved (x : U32) (bit : ℕ) (fits : bit + 15 < 32) :
      (rotateLeft32 x 15).getLsbD (bit + 15) = x.getLsbD bit := by
    rw [rotateLeft32, BitVec.getLsbD_or, BitVec.getLsbD_shiftLeft, BitVec.getLsbD_ushiftRight,
      BitVec.getLsbD_of_ge _ _ (show 32 ≤ 32 - 15 + (bit + 15) by omega), Bool.or_false,
      Nat.add_sub_cancel]
    simp [fits]
  rw [distance] at states
  have rotated := FirstDiffers.of_mul (d := 0x56ed309b) rfl inside (.of_xor states)
  have product := FirstDiffers.of_moved (fun bit fits => ⟨moved _ bit fits, moved _ bit fits⟩)
    inside rotated
  exact .of_mul (d := 0xdee13bb1) rfl (by omega) product

/-- Beginnings of names whose states are at a distance with a high lowest bit. -/
def starts : List Name :=
  [[0x75, 0x63, 0x69, 0x76], [0x71, 0x71, 0x69, 0x42], [0x61, 0x79, 0x61, 0x69]]

/-- The bytes that a name may have. -/
def nameBytes : List CChar :=
  ((List.range 256).map (BitVec.ofNat 8)).filter fun c =>
    !List.contains [0, 0x0a, 0x0d, 0x20, 0x23, 0x2f, 0x7b, 0x7d] c

def asciiBytes : List CChar := nameBytes.filter fun c => !c.msb

/-- Names of eight bytes, by their beginning and their last four bytes. -/
@[irreducible] def crowdKeys : List (Name × CChar × CChar × CChar × CChar) :=
  starts ×ˢ asciiBytes ×ˢ asciiBytes ×ˢ asciiBytes ×ˢ nameBytes

def crowdName : Name × CChar × CChar × CChar × CChar → Name
  | (start, a, b, c, d) => start ++ [a, b, c, d]

/-- Many symbols that are other names of one. -/
@[irreducible] def crowd : List Symbol :=
  crowdKeys.map fun key => ⟨crowdName key, .dynamic [0x61], [], true⟩

theorem nodup_nameBytes : nameBytes.Nodup := by
  refine .filter _ (List.nodup_range.map_on fun a low b low' same => ?_)
  have values := congrArg BitVec.toNat same
  rwa [BitVec.toNat_ofNat, BitVec.toNat_ofNat, Nat.mod_eq_of_lt (List.mem_range.mp low),
    Nat.mod_eq_of_lt (List.mem_range.mp low')] at values

theorem nodup_crowdKeys : crowdKeys.Nodup := by
  have ascii : asciiBytes.Nodup := nodup_nameBytes.filter _
  have starts : starts.Nodup := by decide
  rw [crowdKeys]
  exact starts.product (ascii.product (ascii.product (ascii.product nodup_nameBytes)))

theorem length_crowdKeys : crowdKeys.length = 1285632000 := by
  have all : nameBytes.length = 248 := by decide +kernel
  have ascii : asciiBytes.length = 120 := by decide +kernel
  have starts : starts.length = 3 := rfl
  rw [crowdKeys, List.length_product, List.length_product, List.length_product,
    List.length_product, all, ascii, starts]

theorem plainBlock_of_mem {a b c d : CChar} (first : a ∈ asciiBytes) (second : b ∈ asciiBytes)
    (third : c ∈ asciiBytes) : PlainBlock [a, b, c, d] := by
  have clean {c : CChar} (member : c ∈ asciiBytes) : c.msb = false := by
    simpa using (List.mem_filter.mp member).2
  refine ⟨rfl, fun k low => ?_⟩
  interval_cases k
  · exact clean first
  · exact clean second
  · exact clean third

theorem nameHash_crowd {start : Name} (member : start ∈ starts) (a b c d : CChar) :
    nameHash (start ++ [a, b, c, d]) =
      finalMix (mix (mix 0 (wordOf start)) (wordOf [a, b, c, d]) ^^^ 8) := by
  simp only [starts, List.mem_cons, List.not_mem_nil, or_false] at member
  rcases member with rfl | rfl | rfl
  all_goals exact nameHash_eight ..

theorem starts_apart : ∀ start ∈ starts, ∀ other ∈ starts, start ≠ other → ∃ k < 2,
    (mix 0 (wordOf start) ^^^ mix 0 (wordOf other)).setWidth (8 * k + 7 + 15) =
        (0 : U32).setWidth (8 * k + 7 + 15) ∧
      (mix 0 (wordOf start) ^^^ mix 0 (wordOf other)).setWidth (8 * k + 7 + 15 + 1) ≠
        (0 : U32).setWidth (8 * k + 7 + 15 + 1) := by
  decide +kernel

/-- No two of the names have the same hash. -/
theorem crowd_apart {key key' : Name × CChar × CChar × CChar × CChar} (member : key ∈ crowdKeys)
    (member' : key' ∈ crowdKeys) (same : nameHash (crowdName key) = nameHash (crowdName key')) :
    key = key' := by
  obtain ⟨start, a, b, c, d⟩ := key
  obtain ⟨start', a', b', c', d'⟩ := key'
  simp only [crowdKeys, List.mem_product] at member member'
  obtain ⟨begins, first, second, third, -⟩ := member
  obtain ⟨begins', first', second', third', -⟩ := member'
  have plain : PlainBlock [a, b, c, d] := plainBlock_of_mem first second third
  have plain' : PlainBlock [a', b', c', d'] := plainBlock_of_mem first' second' third'
  rw [crowdName, crowdName, nameHash_crowd begins, nameHash_crowd begins'] at same
  have mixed := xor_left_injective _ (finalMix_injective same)
  by_cases equal : start = start'
  · subst equal
    have bytes := plain.injective plain' (mix_injective _ mixed)
    simp only [List.cons.injEq] at bytes
    obtain ⟨rfl, rfl, rfl, rfl, -⟩ := bytes
    rfl
  · obtain ⟨k, low, below, differs⟩ := starts_apart start begins start' begins' equal
    exact absurd (firstDiffers_of_mix_eq (by omega) ⟨below, differs⟩ mixed)
      (plain.not_firstDiffers plain' (by omega))

theorem length_dedup_crowd : (crowd.map Symbol.hash).dedup.length = 1285632000 := by
  have hashes : crowd.map Symbol.hash = crowdKeys.map fun key => nameHash (crowdName key) := by
    rw [crowd, List.map_map]
    rfl
  have distinct : (crowdKeys.map fun key => nameHash (crowdName key)).Nodup :=
    nodup_crowdKeys.map_on fun _ member _ member' same => crowd_apart member member' same
  rw [hashes, distinct.dedup, List.length_map, length_crowdKeys]

end Crowd

end Hakkun.Sail
