import Hakkun.Machine.Core.Fuel
import Hakkun.Model.Rtld.SymbolTables

/-! # Symbol lookups

In a table of either layout a lookup finds the symbol that a scan of the symbol table finds. In a
SysV table this needs the bucket of the name: `hashElfBucket` keeps a carry out of 32 bits, which
the hash of the table does not have.
-/

namespace Hakkun.Rtld

open Machine.Core (Ends)
open Util (CChar hashElfBucket hashDjb2 hashMurmur)

/-! ## Well-formed tables -/

def elfHashStep (h : U32) (c : CChar) : U32 :=
  let h := (h <<< 4) + c.setWidth 32
  let g := h &&& 0xf0000000
  let h := if g ≠ 0 then h ^^^ g >>> 24 else h
  h &&& ~~~g

/-- The hash of the System V ABI, in the 32 bits of its tables. -/
def elfHash (name : List CChar) : U32 := name.foldl elfHashStep 0

/-- Defined, and not a common block. -/
def Defined (symbol : ElfSym) : Prop := symbol.st_shndx ≠ 0 ∧ symbol.st_shndx ≠ shnCommon

instance (symbol : ElfSym) : Decidable (Defined symbol) :=
  inferInstanceAs (Decidable (_ ∧ _))

namespace SymbolTables

variable (tables : SymbolTables)

/-- The defined symbol that a scan of the symbol table finds. -/
def linearScan (name : List CChar) : Option ℕ :=
  tables.m_pDynSym.findIdx? fun symbol => Defined symbol ∧ tables.name symbol = name

/-- The chain from an index up to a zero. -/
inductive Linked (hashSize : U32) : U32 → List ℕ → Prop
  | nil : Linked hashSize 0 []
  | cons {i next : U32} {rest : List ℕ} (nonzero : i ≠ 0)
    (inside : i.toNat < tables.m_pDynSym.length)
    (follows : tables.hashTable[2 + hashSize.toNat + i.toNat]? = some next)
    (more : Linked hashSize next rest) : Linked hashSize i (i.toNat :: rest)

/-- The bucket of a name in a SysV table. -/
def elfBucket (hashSize : U32) (name : List CChar) : ℕ := (elfHash name).toNat % hashSize.toNat

/-- The layout of the System V ABI: each defined symbol is in the chain of its bucket only. -/
structure WellFormedElf (hashSize : U32) : Prop where
  size : tables.hashTable[0]? = some hashSize
  nonzero : hashSize ≠ 0
  chains : ∀ bucket < hashSize.toNat, ∃ first chain,
    tables.hashTable[2 + bucket]? = some first ∧ tables.Linked hashSize first chain ∧
      ∀ (i : ℕ) symbol, tables.m_pDynSym[i]? = some symbol → Defined symbol →
        (i ∈ chain ↔ elfBucket hashSize (tables.name symbol) = bucket)

/-- The first four words of a GNU table. -/
structure GnuHeader where
  nbuckets : U32
  symoffset : U32
  maskwords : U32
  shift2 : U32

/-- The bucket of a name in a GNU table. -/
def GnuHeader.bucket (header : GnuHeader) (name : List CChar) : ℕ :=
  (hashDjb2 name).toNat % header.nbuckets.toNat

/-- A symbol that is in a GNU table. -/
def Hashed (header : GnuHeader) (i : ℕ) (symbol : ElfSym) : Prop :=
  header.symoffset.toNat ≤ i ∧ tables.m_pDynSym[i]? = some symbol

/-- The GNU layout: the symbols from `symoffset` on are sorted by their buckets, and no other symbol
is defined. -/
structure WellFormedGnu (header : GnuHeader) : Prop where
  words : tables.m_pGnuHash[0]? = some header.nbuckets ∧
    tables.m_pGnuHash[1]? = some header.symoffset ∧
    tables.m_pGnuHash[2]? = some header.maskwords ∧ tables.m_pGnuHash[3]? = some header.shift2
  nbuckets_ne : header.nbuckets ≠ 0
  symoffset_ne : header.symoffset ≠ 0
  maskwords_power : ∃ k, header.maskwords.toNat = 2 ^ k
  shift2_lt : header.shift2.toNat < 32
  fits : 2 * header.maskwords.toNat + header.nbuckets.toNat + tables.m_pDynSym.length < 2 ^ 32
  front : ∀ (i : ℕ) symbol, tables.m_pDynSym[i]? = some symbol → i < header.symoffset.toNat →
    ¬ Defined symbol
  sorted : ∀ i j symbol symbol', tables.Hashed header i symbol → tables.Hashed header j symbol' →
    i ≤ j → header.bucket (tables.name symbol) ≤ header.bucket (tables.name symbol')
  bloom : ∀ wordIdx < header.maskwords.toNat, ∃ word, tables.bloomWord wordIdx = .ok word ∧
    ∀ i symbol, tables.Hashed header i symbol →
      (hashDjb2 (tables.name symbol)).toNat / 64 % header.maskwords.toNat = wordIdx →
      word.getLsbD ((hashDjb2 (tables.name symbol)).toNat % 64) = true ∧
      word.getLsbD ((hashDjb2 (tables.name symbol)).toNat / 2 ^ header.shift2.toNat % 64) = true
  buckets : ∀ bucket < header.nbuckets.toNat, ∃ first : U32,
    tables.m_pGnuHash[4 + 2 * header.maskwords.toNat + bucket]? = some first ∧
      (first = 0 ∧ (∀ i symbol, tables.Hashed header i symbol →
          header.bucket (tables.name symbol) ≠ bucket) ∨
        (∃ symbol, tables.Hashed header first.toNat symbol ∧
          header.bucket (tables.name symbol) = bucket) ∧
        ∀ i symbol, tables.Hashed header i symbol → header.bucket (tables.name symbol) = bucket →
          first.toNat ≤ i)
  chain : ∀ i symbol, tables.Hashed header i symbol → ∃ word,
    tables.m_pGnuHash[4 + (i - header.symoffset.toNat + header.nbuckets.toNat +
      2 * header.maskwords.toNat)]? = some word ∧
      word >>> 1 = hashDjb2 (tables.name symbol) >>> 1 ∧
      (word.getLsbD 0 = true ↔ ∀ symbol', tables.Hashed header (i + 1) symbol' →
        header.bucket (tables.name symbol') ≠ header.bucket (tables.name symbol))

/-- A module has a table of one of the layouts. -/
def WellFormed : Prop :=
  if tables.m_IsGnuHash then ∃ header, tables.WellFormedGnu header
  else ∃ hashSize, tables.WellFormedElf hashSize

/-- The name occurs at most once, and no other symbol has its murmur hash. -/
structure Unambiguous (name : List CChar) : Prop where
  once : ∀ (i j : ℕ) symbol symbol', tables.m_pDynSym[i]? = some symbol →
    tables.m_pDynSym[j]? = some symbol' → tables.name symbol = name → tables.name symbol' = name →
    i = j
  distinct : ∀ symbol ∈ tables.m_pDynSym,
    hashMurmur .aarch64 (tables.name symbol) 0 = hashMurmur .aarch64 name 0 →
    tables.name symbol = name

/-- Both lookups of a name end with what a scan finds. -/
def LooksUp (name : List CChar) : Prop :=
  Ends (tables.getSymbolByName name) (.ok (tables.linearScan name)) ∧
    Ends (tables.getSymbolByHashes (hashElfBucket .aarch64 name) (hashDjb2 name)
      (hashMurmur .aarch64 name 0)) (.ok (tables.linearScan name))

/-! ## Scans -/

theorem isCommon_eq_false {symbol : ElfSym} : symbol.isCommon = false ↔ Defined symbol := by
  rw [ElfSym.isCommon, Defined]
  by_cases zero : symbol.st_shndx = 0
  · simp [zero]
  · simp

/-- What a lookup tests of a symbol. -/
def Passes (test : List CChar → Bool) (symbol : ElfSym) : Prop :=
  Defined symbol ∧ test (tables.name symbol) = true

instance (test : List CChar → Bool) (symbol : ElfSym) : Decidable (tables.Passes test symbol) :=
  inferInstanceAs (Decidable (_ ∧ _))

theorem passes_iff {test : List CChar → Bool} {symbol : ElfSym} :
    (!symbol.isCommon && test (tables.name symbol)) = true ↔ tables.Passes test symbol := by
  rw [Bool.and_eq_true, Bool.not_eq_true', isCommon_eq_false, Passes]

/-- A test that tells a name from the names of all symbols. -/
def Tells (name : List CChar) (test : List CChar → Bool) : Prop :=
  ∀ symbol ∈ tables.m_pDynSym, test (tables.name symbol) = true ↔ tables.name symbol = name

theorem linearScan_eq_some {name : List CChar} {test : List CChar → Bool}
    (unambiguous : tables.Unambiguous name) (tells : tables.Tells name test) {i : ℕ}
    {symbol : ElfSym} (at_ : tables.m_pDynSym[i]? = some symbol)
    (passes : tables.Passes test symbol) : tables.linearScan name = some i := by
  have same : tables.name symbol = name :=
    (tells symbol (List.mem_of_getElem? at_)).mp passes.2
  obtain ⟨inside, rfl⟩ := List.getElem?_eq_some_iff.mp at_
  rw [linearScan, List.findIdx?_eq_some_iff_getElem]
  refine ⟨inside, decide_eq_true ⟨passes.1, same⟩, fun j before found => ?_⟩
  have found := of_decide_eq_true found
  have equal := unambiguous.once j i _ _ (List.getElem?_eq_getElem (before.trans inside))
    (List.getElem?_eq_getElem inside) found.2 same
  exact before.ne equal

theorem linearScan_eq_none {name : List CChar} {test : List CChar → Bool}
    (tells : tables.Tells name test)
    (missing : ∀ (i : ℕ) symbol, tables.m_pDynSym[i]? = some symbol → ¬ tables.Passes test symbol) :
    tables.linearScan name = none := by
  rw [linearScan, List.findIdx?_eq_none_iff]
  intro symbol member
  obtain ⟨i, at_⟩ := List.getElem?_of_mem member
  rw [decide_eq_false_iff_not]
  exact fun found => missing i symbol at_ ⟨found.1, (tells symbol member).mpr found.2⟩

/-! ## SysV tables -/

@[simp] theorem read_of_getElem? {T : Type} {table : List T} {i : ℕ} {entry : T}
    (at_ : table[i]? = some entry) : read table i = .ok entry := by
  rw [read, at_]

private theorem ok_bind {S T : Type} (value : S) (next : S → Except LookupFault T) :
    (Except.ok value >>= next) = next value := rfl

/-- The first symbol of a chain that passes is found, or there is none. -/
theorem elfLoop_spec {hashSize first : U32} {chain : List ℕ}
    (linked : tables.Linked hashSize first chain) (test : List CChar → Bool) :
    ∃ result, Ends (fun fuel => tables.elfLoop hashSize test fuel first) (.ok result) ∧
      (∀ i, result = some i → i ∈ chain ∧ ∃ symbol, tables.m_pDynSym[i]? = some symbol ∧
        tables.Passes test symbol) ∧
      (result = none → ∀ i ∈ chain, ∀ symbol, tables.m_pDynSym[i]? = some symbol →
        ¬ tables.Passes test symbol) := by
  induction linked with
  | nil =>
    refine ⟨none, .of_succ (.of_forall fun fuel => rfl), ?_, ?_⟩
    · rintro i ⟨⟩
    · exact fun _ i member => (List.not_mem_nil member).elim
  | @cons i next rest nonzero inside follows more ih =>
    obtain ⟨symbol, at_⟩ : ∃ symbol, tables.m_pDynSym[i.toNat]? = some symbol :=
      ⟨_, List.getElem?_eq_getElem inside⟩
    have turn : ∀ fuel, tables.elfLoop hashSize test (fuel + 1) i =
        if tables.Passes test symbol then .ok (some i.toNat)
        else tables.elfLoop hashSize test fuel next := by
      intro fuel
      rw [elfLoop, if_neg nonzero, read_of_getElem? at_, read_of_getElem? follows]
      simp only [← passes_iff]
      rfl
    by_cases passes : tables.Passes test symbol
    · refine ⟨some i.toNat, .of_succ (.of_forall fun fuel => ?_), ?_, ?_⟩
      · rw [turn, if_pos passes]
      · rintro _ ⟨⟩
        exact ⟨List.mem_cons_self, symbol, at_, passes⟩
      · rintro ⟨⟩
    · obtain ⟨result, ends, found, missing⟩ := ih
      refine ⟨result, .of_succ (ends.congr fun fuel => ?_), fun j is => ?_, fun none j member => ?_⟩
      · rw [turn, if_neg passes]
      · exact ⟨List.mem_cons_of_mem _ (found j is).1, (found j is).2⟩
      · rcases List.mem_cons.mp member with rfl | later
        · intro other at' passes'
          rw [at_] at at'
          cases at'
          exact passes passes'
        · exact missing none j later

/-- A lookup in a SysV table finds a symbol of its bucket if there is one that passes. -/
theorem lookupElf_spec {hashSize : U32} (wellFormed : tables.WellFormedElf hashSize)
    (bucketHash : U64) (test : List CChar → Bool) :
    ∃ result, Ends (tables.lookupElf bucketHash test) (.ok result) ∧
      (∀ i, result = some i → ∃ symbol, tables.m_pDynSym[i]? = some symbol ∧
        tables.Passes test symbol ∧
        elfBucket hashSize (tables.name symbol) = bucketHash.toNat % hashSize.toNat) ∧
      (result = none → ∀ (i : ℕ) symbol, tables.m_pDynSym[i]? = some symbol →
        tables.Passes test symbol →
        elfBucket hashSize (tables.name symbol) ≠ bucketHash.toNat % hashSize.toNat) := by
  have positive : 0 < hashSize.toNat := by
    have := wellFormed.nonzero
    rw [Nat.pos_iff_ne_zero]
    exact fun zero => this (BitVec.eq_of_toNat_eq zero)
  obtain ⟨first, chain, bucket, linked, members⟩ :=
    wellFormed.chains (bucketHash.toNat % hashSize.toNat) (Nat.mod_lt _ positive)
  obtain ⟨result, ends, found, missing⟩ := tables.elfLoop_spec linked test
  refine ⟨result, ends.congr fun fuel => ?_, fun i is => ?_,
    fun none i symbol at_ passes same => ?_⟩
  · rw [lookupElf, read_of_getElem? wellFormed.size]
    change (if hashSize = 0 then _ else _) = _
    rw [if_neg wellFormed.nonzero, read_of_getElem? bucket]
    rfl
  · obtain ⟨member, symbol, at_, passes⟩ := found i is
    exact ⟨symbol, at_, passes, (members i symbol at_ passes.1).mp member⟩
  · exact missing none i ((members i symbol at_ passes.1).mpr same) symbol at_ passes

/-! ## GNU tables -/

theorem xor_lt_two_iff {x y : U32} : x ^^^ y < 2 ↔ x >>> 1 = y >>> 1 := by
  have small : ∀ z : U32, z < 2 ↔ z >>> 1 = 0 := by
    intro z
    rw [BitVec.lt_def, ← BitVec.toNat_inj, BitVec.toNat_ushiftRight, Nat.shiftRight_eq_div_pow]
    change z.toNat < 2 ↔ z.toNat / 2 = 0
    omega
  rw [small, BitVec.ushiftRight_xor_distrib]
  exact BitVec.xor_eq_zero_iff

theorem and_one_ne_zero_iff {x : U32} : x &&& 1 ≠ 0 ↔ x.getLsbD 0 = true := by
  rw [Ne, ← BitVec.toNat_inj, BitVec.toNat_and, BitVec.getLsbD, Nat.testBit_zero,
    decide_eq_true_iff]
  change ¬ x.toNat &&& 1 = 0 ↔ _
  rw [Nat.and_one_is_mod]
  omega

/-- Both bits of a mask are set. -/
theorem and_bloomMask {word : U64} {bit1 bit2 : U32} (first : word.getLsbD bit1.toNat = true)
    (second : word.getLsbD bit2.toNat = true) :
    word &&& ((1 : U64) <<< bit1 ||| (1 : U64) <<< bit2) =
      (1 : U64) <<< bit1 ||| (1 : U64) <<< bit2 := by
  have set_ : ∀ bit : U32, word.getLsbD bit.toNat = true →
      word &&& (1 : U64) <<< bit = (1 : U64) <<< bit := by
    intro bit isSet
    have power : (1 : U64) <<< bit = BitVec.twoPow 64 bit.toNat := (BitVec.twoPow_eq 64 _).symm
    rw [power, BitVec.and_twoPow, if_pos isSet]
  rw [BitVec.and_or_distrib_left, set_ bit1 first, set_ bit2 second]

section Gnu

variable {tables} {header : GnuHeader} (wellFormed : tables.WellFormedGnu header)

include wellFormed

/-- Symbols that are sorted with others of their bucket around them are in it. -/
theorem WellFormedGnu.bucket_between {i j k : ℕ} {one two three : ElfSym}
    (first : tables.Hashed header i one) (second : tables.Hashed header j two)
    (third : tables.Hashed header k three) (before : i ≤ j) (after : j ≤ k)
    (same : header.bucket (tables.name one) = header.bucket (tables.name three)) :
    header.bucket (tables.name two) = header.bucket (tables.name one) := by
  have below := wellFormed.sorted i j one two first second before
  have above := wellFormed.sorted j k two three second third after
  omega

/-- The symbols behind the last one of a bucket are in other buckets. -/
theorem WellFormedGnu.bucket_after {i j : ℕ} {one two : ElfSym}
    (first : tables.Hashed header i one) (second : tables.Hashed header j two) (after : i < j)
    (last : ∀ symbol, tables.Hashed header (i + 1) symbol →
      header.bucket (tables.name symbol) ≠ header.bucket (tables.name one)) :
    header.bucket (tables.name two) ≠ header.bucket (tables.name one) := by
  intro same
  have inside : i + 1 < tables.m_pDynSym.length :=
    Nat.lt_of_le_of_lt after (List.getElem?_eq_some_iff.mp second.2).1
  have next : tables.Hashed header (i + 1) tables.m_pDynSym[i + 1] :=
    ⟨first.1.trans (Nat.le_succ i), List.getElem?_eq_getElem inside⟩
  exact last _ next (wellFormed.bucket_between first next second (Nat.le_succ i) after same.symm)

/-- The index of a symbol fits in a word. -/
theorem WellFormedGnu.toNat_ofNat {i : ℕ} {symbol : ElfSym}
    (hashed : tables.Hashed header i symbol) : (BitVec.ofNat 32 i).toNat = i := by
  have inside := (List.getElem?_eq_some_iff.mp hashed.2).1
  have fits := wellFormed.fits
  rw [BitVec.toNat_ofNat, Nat.mod_eq_of_lt (by omega)]

/-- The first symbol of a chain that passes with the hash is found, or there is none. -/
theorem gnuLoop_spec (hash : U32) (test : List CChar → Bool) {i : ℕ} {symbol : ElfSym}
    (hashed : tables.Hashed header i symbol)
    (inBucket : header.bucket (tables.name symbol) = hash.toNat % header.nbuckets.toNat) :
    ∃ result, Ends (fun fuel => tables.gnuLoop hash test fuel (BitVec.ofNat 32 i)
        (4 + (i - header.symoffset.toNat + header.nbuckets.toNat +
          2 * header.maskwords.toNat))) (.ok result) ∧
      (∀ j, result = some j → ∃ symbol, tables.m_pDynSym[j]? = some symbol ∧
        tables.Passes test symbol) ∧
      (result = none → ∀ j ≥ i, ∀ symbol, tables.Hashed header j symbol →
        hashDjb2 (tables.name symbol) = hash → ¬ tables.Passes test symbol) := by
  -- induction on the number of symbols from here on
  induction remaining : tables.m_pDynSym.length - i generalizing i symbol with
  | zero =>
    have inside := (List.getElem?_eq_some_iff.mp hashed.2).1
    omega
  | succ remaining ih =>
    obtain ⟨word, at_, upper, last⟩ := wellFormed.chain i symbol hashed
    have toNat := wellFormed.toNat_ofNat hashed
    have turn : ∀ fuel, tables.gnuLoop hash test (fuel + 1) (BitVec.ofNat 32 i)
        (4 + (i - header.symoffset.toNat + header.nbuckets.toNat + 2 * header.maskwords.toNat)) =
        if word ^^^ hash < 2 ∧ tables.Passes test symbol then .ok (some i)
        else if word &&& 1 ≠ 0 then .ok none
        else tables.gnuLoop hash test fuel (BitVec.ofNat 32 i + 1)
          (4 + (i - header.symoffset.toNat + header.nbuckets.toNat + 2 * header.maskwords.toNat) +
            1) := by
      intro fuel
      have symbolAt : tables.m_pDynSym[(BitVec.ofNat 32 i).toNat]? = some symbol := by
        rw [toNat]
        exact hashed.2
      rw [gnuLoop, read_of_getElem? at_, read_of_getElem? symbolAt, toNat]
      simp only [ok_bind]
      by_cases near : word ^^^ hash < 2
      · rw [if_pos near]
        simp only [near, true_and, ← passes_iff]
      · rw [if_neg near, if_neg Bool.false_ne_true]
        simp only [near, false_and, if_false]
    have differs : ¬ (word ^^^ hash < 2 ∧ tables.Passes test symbol) →
        hashDjb2 (tables.name symbol) = hash → ¬ tables.Passes test symbol := by
      intro neither same passes
      refine neither ⟨xor_lt_two_iff.mpr ?_, passes⟩
      rw [upper, same]
    by_cases found : word ^^^ hash < 2 ∧ tables.Passes test symbol
    · refine ⟨some i, .of_succ (.of_forall fun fuel => ?_), ?_, ?_⟩
      · rw [turn, if_pos found]
      · rintro _ ⟨⟩
        exact ⟨symbol, hashed.2, found.2⟩
      · rintro ⟨⟩
    · by_cases ends : word &&& 1 ≠ 0
      · refine ⟨none, .of_succ (.of_forall fun fuel => ?_), ?_,
          fun _ j after other hashed' same => ?_⟩
        · rw [turn, if_neg found, if_pos ends]
        · rintro _ ⟨⟩
        · rcases Nat.eq_or_lt_of_le after with rfl | after
          · cases Option.some.inj (hashed.2.symm.trans hashed'.2)
            exact differs found same
          · have apart := wellFormed.bucket_after hashed hashed' after
              (last.mp (and_one_ne_zero_iff.mp ends))
            rw [inBucket, GnuHeader.bucket, same] at apart
            exact (apart rfl).elim
      · obtain ⟨next, hashed', same⟩ : ∃ next, tables.Hashed header (i + 1) next ∧
            header.bucket (tables.name next) = header.bucket (tables.name symbol) := by
          by_contra none
          refine ends (and_one_ne_zero_iff.mpr (last.mpr fun next hashed' same => none ?_))
          exact ⟨next, hashed', same⟩
        obtain ⟨result, ends', found', missing⟩ := ih hashed' (same.trans inBucket) (by omega)
        have low := hashed.1
        have position : i + 1 - header.symoffset.toNat + header.nbuckets.toNat +
            2 * header.maskwords.toNat = i - header.symoffset.toNat + header.nbuckets.toNat +
              2 * header.maskwords.toNat + 1 := by
          omega
        rw [position, BitVec.ofNat_add] at ends'
        refine ⟨result, .of_succ (ends'.congr fun fuel => ?_), found', fun none j after => ?_⟩
        · rw [turn, if_neg found, if_neg ends]
          rfl
        · rcases Nat.eq_or_lt_of_le after with rfl | after
          · intro other hashed' same
            cases Option.some.inj (hashed.2.symm.trans hashed'.2)
            exact differs found same
          · exact missing none j after

/-- The position in the table of a name's bucket. -/
theorem WellFormedGnu.bucket_position (hash : U32) :
    4 + (header.maskwords * 2).toNat +
        (hash - (if header.nbuckets ≠ 0 then hash / header.nbuckets else 0) *
          header.nbuckets).toNat =
      4 + 2 * header.maskwords.toNat + hash.toNat % header.nbuckets.toNat := by
  have fits := wellFormed.fits
  have words : (header.maskwords * 2).toNat = 2 * header.maskwords.toNat := by
    rw [BitVec.toNat_mul]
    change header.maskwords.toNat * 2 % 2 ^ 32 = _
    omega
  have below : hash.toNat / header.nbuckets.toNat * header.nbuckets.toNat ≤ hash.toNat :=
    Nat.div_mul_le_self _ _
  have parts := Nat.div_add_mod' hash.toNat header.nbuckets.toNat
  have rest : (hash - hash / header.nbuckets * header.nbuckets).toNat =
      hash.toNat % header.nbuckets.toNat := by
    have product : (hash / header.nbuckets * header.nbuckets).toNat =
        hash.toNat / header.nbuckets.toNat * header.nbuckets.toNat := by
      rw [BitVec.toNat_mul, BitVec.toNat_udiv, Nat.mod_eq_of_lt (below.trans_lt hash.isLt)]
    rw [BitVec.toNat_sub_of_le (BitVec.le_def.mpr (product ▸ below)), product]
    omega
  rw [if_pos wellFormed.nbuckets_ne, words, rest]

/-- The position in the table of a symbol's chain. -/
theorem WellFormedGnu.chain_position {i : ℕ} {symbol : ElfSym}
    (hashed : tables.Hashed header i symbol) :
    (BitVec.ofNat 32 i + header.nbuckets + header.maskwords * 2 - header.symoffset).toNat =
      i - header.symoffset.toNat + header.nbuckets.toNat + 2 * header.maskwords.toNat := by
  have inside := (List.getElem?_eq_some_iff.mp hashed.2).1
  have fits := wellFormed.fits
  have low := hashed.1
  have toNat := wellFormed.toNat_ofNat hashed
  have double : (header.maskwords * 2).toNat = 2 * header.maskwords.toNat := by
    rw [BitVec.toNat_mul]
    change header.maskwords.toNat * 2 % 2 ^ 32 = _
    omega
  have sum : (BitVec.ofNat 32 i + header.nbuckets + header.maskwords * 2).toNat =
      i + header.nbuckets.toNat + 2 * header.maskwords.toNat := by
    rw [BitVec.toNat_add, BitVec.toNat_add, toNat, double]
    omega
  rw [BitVec.toNat_sub_of_le (BitVec.le_def.mpr (by omega)), sum]
  omega

/-- The bits of a hash in the Bloom filter. -/
theorem WellFormedGnu.bloom_position (hash : U32) :
    ((header.maskwords - (1 : U32)) &&& (hash >>> 6)).toNat =
        hash.toNat / 64 % header.maskwords.toNat ∧
      (hash &&& 63).toNat = hash.toNat % 64 ∧
      ((hash >>> (header.shift2 &&& 31)) &&& 63).toNat =
        hash.toNat / 2 ^ header.shift2.toNat % 64 := by
  obtain ⟨k, power⟩ := wellFormed.maskwords_power
  have low : ∀ x : U32, (x &&& 63).toNat = x.toNat % 64 := fun x => by
    rw [BitVec.toNat_and]
    exact Nat.and_two_pow_sub_one_eq_mod x.toNat 6
  have shift : (header.shift2 &&& 31).toNat = header.shift2.toNat := by
    rw [BitVec.toNat_and]
    exact (Nat.and_two_pow_sub_one_eq_mod header.shift2.toNat 5).trans
      (Nat.mod_eq_of_lt wellFormed.shift2_lt)
  refine ⟨?_, low hash, ?_⟩
  · have positive : 0 < header.maskwords.toNat := power ▸ Nat.two_pow_pos k
    have mask : (header.maskwords - (1 : U32)).toNat = 2 ^ k - 1 := by
      have above : (1 : U32) ≤ header.maskwords := BitVec.le_def.mpr positive
      rw [BitVec.toNat_sub_of_le above, power]
      rfl
    rw [BitVec.toNat_and, mask, Nat.and_comm, Nat.and_two_pow_sub_one_eq_mod,
      BitVec.toNat_ushiftRight, Nat.shiftRight_eq_div_pow, power]
  · rw [low, BitVec.ushiftRight_eq', BitVec.toNat_ushiftRight, Nat.shiftRight_eq_div_pow, shift]

/-- A lookup in a GNU table finds a symbol that passes if there is one with the hash. -/
theorem lookupGnu_spec (hash : U32) (test : List CChar → Bool) :
    ∃ result, Ends (tables.lookupGnu hash test) (.ok result) ∧
      (∀ i, result = some i → ∃ symbol, tables.m_pDynSym[i]? = some symbol ∧
        tables.Passes test symbol) ∧
      (result = none → ∀ (i : ℕ) symbol, tables.m_pDynSym[i]? = some symbol →
        hashDjb2 (tables.name symbol) = hash → ¬ tables.Passes test symbol) := by
  obtain ⟨word0, word1, word2, word3⟩ := wellFormed.words
  obtain ⟨wordIdx, bit1, bit2⟩ := wellFormed.bloom_position hash
  obtain ⟨k, power⟩ := wellFormed.maskwords_power
  obtain ⟨word, bloom, set_⟩ := wellFormed.bloom (hash.toNat / 64 % header.maskwords.toNat)
    (Nat.mod_lt _ (power ▸ Nat.two_pow_pos k))
  have positive : 0 < header.nbuckets.toNat := by
    rw [Nat.pos_iff_ne_zero]
    exact fun zero => wellFormed.nbuckets_ne (BitVec.eq_of_toNat_eq zero)
  obtain ⟨first, bucket, empty_or⟩ := wellFormed.buckets (hash.toNat % header.nbuckets.toNat)
    (Nat.mod_lt _ positive)
  have start : ∀ fuel, tables.lookupGnu hash test fuel =
      if word &&& ((1 : U64) <<< (hash &&& 63) |||
          (1 : U64) <<< ((hash >>> (header.shift2 &&& 31)) &&& 63)) ≠
        (1 : U64) <<< (hash &&& 63) |||
          (1 : U64) <<< ((hash >>> (header.shift2 &&& 31)) &&& 63) then .ok none
      else if first < header.symoffset then .ok none
      else tables.gnuLoop hash test fuel first
        (4 + (first + header.nbuckets + header.maskwords * 2 - header.symoffset).toNat) := by
    intro fuel
    rw [lookupGnu, read_of_getElem? word0, read_of_getElem? word1, read_of_getElem? word2,
      read_of_getElem? word3]
    simp only [ok_bind, wordIdx, bloom, wellFormed.bucket_position, read_of_getElem? bucket]
  -- a defined symbol is hashed
  have hashed_of_passes : ∀ (i : ℕ) symbol, tables.m_pDynSym[i]? = some symbol →
      tables.Passes test symbol → tables.Hashed header i symbol := by
    intro i symbol at_ passes
    refine ⟨Nat.not_lt.mp fun before => ?_, at_⟩
    exact wellFormed.front i symbol at_ before passes.1
  have none_ : ∀ i : ℕ, (none : Option ℕ) = some i → ∃ symbol, tables.m_pDynSym[i]? = some symbol ∧
      tables.Passes test symbol := by
    rintro i ⟨⟩
  by_cases passes : word &&& ((1 : U64) <<< (hash &&& 63) |||
      (1 : U64) <<< ((hash >>> (header.shift2 &&& 31)) &&& 63)) ≠
      (1 : U64) <<< (hash &&& 63) ||| (1 : U64) <<< ((hash >>> (header.shift2 &&& 31)) &&& 63)
  · refine ⟨none, .of_forall fun fuel => ?_, none_, fun _ i symbol at_ same passes' => passes ?_⟩
    · rw [start, if_pos passes]
    · obtain ⟨low, high⟩ := set_ i symbol (hashed_of_passes i symbol at_ passes') (by rw [same])
      rw [same] at low high
      exact and_bloomMask (bit1 ▸ low) (bit2 ▸ high)
  · rcases empty_or with ⟨rfl, empty⟩ | ⟨⟨symbol, hashed, inBucket⟩, least⟩
    · have before : (0 : U32) < header.symoffset := by
        rw [BitVec.lt_def]
        refine Nat.pos_of_ne_zero fun zero => ?_
        exact wellFormed.symoffset_ne (BitVec.eq_of_toNat_eq zero)
      refine ⟨none, .of_forall fun fuel => ?_, none_, fun _ i symbol at_ same passes' => ?_⟩
      · rw [start, if_neg passes, if_pos before]
      · refine empty i symbol (hashed_of_passes i symbol at_ passes') ?_
        rw [GnuHeader.bucket, same]
    · have inside : ¬ first < header.symoffset := by
        rw [BitVec.lt_def]
        exact Nat.not_lt.mpr hashed.1
      have position := wellFormed.chain_position hashed
      rw [BitVec.ofNat_toNat, BitVec.setWidth_eq] at position
      obtain ⟨result, ends, found, missing⟩ := gnuLoop_spec wellFormed hash test hashed inBucket
      rw [BitVec.ofNat_toNat, BitVec.setWidth_eq] at ends
      refine ⟨result, ends.congr fun fuel => ?_, found, fun none i symbol at_ same passes' => ?_⟩
      · rw [start, if_neg passes, if_neg inside, position]
      · have hashed' := hashed_of_passes i symbol at_ passes'
        have after := least i symbol hashed' (by rw [GnuHeader.bucket, same])
        exact missing none i after symbol hashed' same passes'

end Gnu

/-! ## Lookups -/

section Lookups

variable {tables} {name : List CChar}

theorem tells_name : tables.Tells name fun symbol => symbol = name := by
  intro symbol _
  rw [decide_eq_true_iff]

theorem Unambiguous.tells_murmur (unambiguous : tables.Unambiguous name) :
    tables.Tells name fun symbol =>
      hashMurmur .aarch64 symbol 0 = hashMurmur .aarch64 name 0 := by
  intro symbol member
  rw [decide_eq_true_iff]
  exact ⟨unambiguous.distinct symbol member, fun same => by rw [same]⟩

/-- A result that is a symbol that passes, or none if no symbol passes, is the one of a scan. -/
theorem Unambiguous.eq_linearScan (unambiguous : tables.Unambiguous name)
    {test : List CChar → Bool} (tells : tables.Tells name test) {result : Option ℕ}
    (found : ∀ i, result = some i → ∃ symbol, tables.m_pDynSym[i]? = some symbol ∧
      tables.Passes test symbol)
    (missing : result = none → ∀ (i : ℕ) symbol, tables.m_pDynSym[i]? = some symbol →
      ¬ tables.Passes test symbol) : result = tables.linearScan name := by
  cases result with
  | none => exact (tables.linearScan_eq_none tells (missing rfl)).symm
  | some i =>
    obtain ⟨symbol, at_, passes⟩ := found i rfl
    exact (tables.linearScan_eq_some unambiguous tells at_ passes).symm

theorem WellFormedGnu.lookup {header : GnuHeader} (wellFormed : tables.WellFormedGnu header)
    (unambiguous : tables.Unambiguous name) {test : List CChar → Bool}
    (tells : tables.Tells name test) :
    Ends (tables.lookupGnu (hashDjb2 name) test) (.ok (tables.linearScan name)) := by
  obtain ⟨result, ends, found, missing⟩ := lookupGnu_spec wellFormed (hashDjb2 name) test
  have same := unambiguous.eq_linearScan tells found fun none i symbol at_ passes => by
    have named := (tells symbol (List.mem_of_getElem? at_)).mp passes.2
    exact missing none i symbol at_ (by rw [named]) passes
  exact same ▸ ends

/-- In a SysV table the bucket has to be the one of the name, unless no symbol is found anyway. -/
theorem WellFormedElf.lookup_iff {hashSize : U32} (wellFormed : tables.WellFormedElf hashSize)
    (unambiguous : tables.Unambiguous name) {test : List CChar → Bool}
    (tells : tables.Tells name test) (bucketHash : U64) :
    Ends (tables.lookupElf bucketHash test) (.ok (tables.linearScan name)) ↔
      tables.linearScan name = none ∨
        bucketHash.toNat % hashSize.toNat = elfBucket hashSize name := by
  obtain ⟨result, ends, found, missing⟩ := tables.lookupElf_spec wellFormed bucketHash test
  have named : ∀ (i : ℕ) symbol, tables.m_pDynSym[i]? = some symbol →
      tables.Passes test symbol → tables.name symbol = name := fun i symbol at_ passes =>
    (tells symbol (List.mem_of_getElem? at_)).mp passes.2
  constructor
  · intro scans
    have same : result = tables.linearScan name := Except.ok.inj (ends.unique scans)
    cases result with
    | none => exact .inl same.symm
    | some i =>
      obtain ⟨symbol, at_, passes, bucket⟩ := found i rfl
      rw [named i symbol at_ passes] at bucket
      exact .inr bucket.symm
  · intro either
    have same : result = tables.linearScan name := by
      cases result with
      | some i =>
        obtain ⟨symbol, at_, passes, -⟩ := found i rfl
        exact (tables.linearScan_eq_some unambiguous tells at_ passes).symm
      | none =>
        rcases either with none | bucket
        · exact none.symm
        · refine (tables.linearScan_eq_none tells fun i symbol at_ passes => ?_).symm
          apply missing rfl i symbol at_ passes
          rw [named i symbol at_ passes, bucket]
    exact same ▸ ends

/-- The bucket that a SysV lookup searches is the one of the name. -/
def SearchesBucket (tables : SymbolTables) (name : List CChar) : Prop :=
  ∀ hashSize : U32, tables.hashTable[0]? = some hashSize →
    (hashElfBucket .aarch64 name).toNat % hashSize.toNat = elfBucket hashSize name

/-- In a GNU table every name is looked up; in a SysV table a name without a symbol, and one whose
bucket is searched. -/
theorem looksUp_iff (wellFormed : tables.WellFormed) (unambiguous : tables.Unambiguous name) :
    tables.LooksUp name ↔ tables.m_IsGnuHash = true ∨ tables.linearScan name = none ∨
      tables.SearchesBucket name := by
  have murmur := unambiguous.tells_murmur
  rw [WellFormed] at wellFormed
  cases gnu : tables.m_IsGnuHash with
  | true =>
    rw [gnu, if_pos rfl] at wellFormed
    obtain ⟨header, wellFormed⟩ := wellFormed
    refine iff_of_true ⟨?_, ?_⟩ (.inl rfl)
    · refine (wellFormed.lookup unambiguous tells_name).congr fun fuel => ?_
      rw [getSymbolByName, if_pos gnu, getSymbolByNameGnu]
    · refine (wellFormed.lookup unambiguous murmur).congr fun fuel => ?_
      rw [getSymbolByHashes, if_pos gnu, getSymbolByHashesGnu]
  | false =>
    rw [gnu, if_neg Bool.false_ne_true] at wellFormed
    obtain ⟨hashSize, wellFormed⟩ := wellFormed
    have byName : tables.getSymbolByName name =
        tables.lookupElf (hashElfBucket .aarch64 name) fun symbol => symbol = name := by
      funext fuel
      rw [getSymbolByName, gnu]
      rfl
    have byHashes : tables.getSymbolByHashes (hashElfBucket .aarch64 name) (hashDjb2 name)
        (hashMurmur .aarch64 name 0) = tables.lookupElf (hashElfBucket .aarch64 name)
          fun symbol => hashMurmur .aarch64 symbol 0 = hashMurmur .aarch64 name 0 := by
      funext fuel
      rw [getSymbolByHashes, gnu]
      rfl
    have searches : tables.SearchesBucket name ↔
        (hashElfBucket .aarch64 name).toNat % hashSize.toNat = elfBucket hashSize name := by
      refine ⟨fun all => all hashSize wellFormed.size, fun same other size => ?_⟩
      cases Option.some.inj (wellFormed.size.symm.trans size)
      exact same
    rw [LooksUp, byName, byHashes, wellFormed.lookup_iff unambiguous tells_name,
      wellFormed.lookup_iff unambiguous murmur, and_self, searches]
    exact (or_iff_right Bool.false_ne_true).symm

end Lookups

/-! ## Tables of one symbol -/

/-- A SysV table of three buckets with one symbol, whose name has the hash of the first. -/
def oneSymbol (name : List CChar) : SymbolTables where
  m_IsGnuHash := false
  hashTable := [3, 2, 1, 0, 0, 0, 0]
  m_pGnuHash := []
  m_pDynSym := [⟨0, 0⟩, ⟨1, 1⟩]
  m_pStrTab offset := if offset = 1 then name else []

/-- The same symbol in a GNU table of one bucket. -/
def oneGnuSymbol (name : List CChar) : SymbolTables :=
  { oneSymbol name with
    m_IsGnuHash := true
    m_pGnuHash := [1, 1, 1, 0, 0xffffffff, 0xffffffff, 1, hashDjb2 name ||| 1] }

theorem defined_oneSymbol {name : List CChar} {i : ℕ} {symbol : ElfSym}
    (at_ : (oneSymbol name).m_pDynSym[i]? = some symbol) (defined : Defined symbol) :
    i = 1 ∧ (oneSymbol name).name symbol = name := by
  match i with
  | 0 =>
    cases at_
    exact (defined.1 rfl).elim
  | 1 =>
    cases at_
    exact ⟨rfl, rfl⟩
  | _ + 2 => cases at_

theorem wellFormed_oneSymbol {name : List CChar} (first : (elfHash name).toNat % 3 = 0) :
    (oneSymbol name).WellFormed := by
  refine ⟨3, rfl, by decide, fun bucket below => ?_⟩
  match bucket with
  | 0 =>
    refine ⟨1, [1], rfl, .cons (by decide) Nat.one_lt_two rfl .nil, fun i symbol at_ defined => ?_⟩
    obtain ⟨rfl, named⟩ := defined_oneSymbol at_ defined
    rw [named]
    exact iff_of_true List.mem_cons_self first
  | bucket + 1 =>
    refine ⟨0, [], ?_, .nil, fun i symbol at_ defined => ?_⟩
    · match bucket with
      | 0 => rfl
      | 1 => rfl
      | bucket + 2 =>
        change bucket + 2 + 1 < 3 at below
        omega
    · rw [(defined_oneSymbol at_ defined).2]
      refine iff_of_false List.not_mem_nil fun same => ?_
      change (elfHash name).toNat % 3 = _ at same
      omega

theorem hashed_oneGnuSymbol {name : List CChar} {i : ℕ} {symbol : ElfSym}
    (hashed : (oneGnuSymbol name).Hashed ⟨1, 1, 1, 0⟩ i symbol) :
    i = 1 ∧ (oneGnuSymbol name).name symbol = name := by
  obtain ⟨low, at_⟩ := hashed
  match i with
  | 0 =>
    change 1 ≤ 0 at low
    omega
  | 1 =>
    cases at_
    exact ⟨rfl, rfl⟩
  | _ + 2 => cases at_

theorem wellFormed_oneGnuSymbol (name : List CChar) : (oneGnuSymbol name).WellFormed := by
  have only : ∀ name, GnuHeader.bucket ⟨1, 1, 1, 0⟩ name = 0 := fun name => Nat.mod_one _
  refine ⟨⟨1, 1, 1, 0⟩, ?_⟩
  constructor
  case words => exact ⟨rfl, rfl, rfl, rfl⟩
  case nbuckets_ne => exact show (1 : U32) ≠ 0 by decide
  case symoffset_ne => exact show (1 : U32) ≠ 0 by decide
  case maskwords_power => exact ⟨0, rfl⟩
  case shift2_lt => exact show 0 < 32 by decide
  case fits => exact show 2 * 1 + 1 + 2 < 2 ^ 32 by decide
  case front =>
    intro i symbol at_ before defined
    have index := (@defined_oneSymbol name i symbol at_ defined).1
    change i < 1 at before
    omega
  case sorted =>
    intro i j symbol symbol' _ _ _
    rw [only, only]
  case bloom =>
    intro wordIdx below
    have zero : wordIdx = 0 := Nat.lt_one_iff.mp below
    have ones : (0xffffffff : U32) ++ (0xffffffff : U32) = BitVec.allOnes 64 := by decide
    have set_ : ∀ n, (BitVec.allOnes 64).getLsbD (n % 64) = true := by
      intro n
      rw [BitVec.getLsbD_allOnes, decide_eq_true_iff]
      exact Nat.mod_lt n (by decide)
    subst zero
    exact ⟨_, congrArg Except.ok ones, fun i symbol _ _ => ⟨set_ _, set_ _⟩⟩
  case buckets =>
    intro bucket below
    have zero : bucket = 0 := Nat.lt_one_iff.mp below
    subst zero
    refine ⟨1, rfl, .inr ⟨⟨⟨1, 1⟩, ⟨le_refl _, rfl⟩, only _⟩, fun i symbol hashed _ => ?_⟩⟩
    exact hashed.1
  case chain =>
    intro i symbol hashed
    obtain ⟨rfl, named⟩ := hashed_oneGnuSymbol hashed
    refine ⟨hashDjb2 name ||| 1, rfl, ?_, iff_of_true ?_ fun next hashed' => ?_⟩
    · rw [named, BitVec.ushiftRight_or_distrib]
      exact BitVec.or_zero
    · rw [BitVec.getLsbD_or]
      exact Bool.or_true _
    · have index := (hashed_oneGnuSymbol hashed').1
      omega

theorem unambiguous_oneSymbol {name : List CChar} {tables : SymbolTables}
    (symbols : tables.m_pDynSym = (oneSymbol name).m_pDynSym)
    (strings : tables.m_pStrTab = (oneSymbol name).m_pStrTab)
    (murmur : hashMurmur .aarch64 [] 0 ≠ hashMurmur .aarch64 name 0) :
    tables.Unambiguous name := by
  have names : tables.name = (oneSymbol name).name := by
    funext symbol
    rw [SymbolTables.name, strings]
    rfl
  have index : ∀ (i : ℕ) symbol, tables.m_pDynSym[i]? = some symbol →
      tables.name symbol = name → i = 1 := by
    rw [symbols, names]
    intro i symbol at_ named
    match i with
    | 0 =>
      cases at_
      refine (murmur ?_).elim
      rw [← named]
      rfl
    | 1 => rfl
    | _ + 2 => cases at_
  constructor
  · intro i j symbol symbol' at_ at' named named'
    rw [index i symbol at_ named, index j symbol' at' named']
  · rw [symbols, names]
    intro symbol member same
    rcases List.mem_cons.mp member with rfl | member
    · exact (murmur same).elim
    · rcases List.mem_cons.mp member with rfl | member
      · rfl
      · exact (List.not_mem_nil member).elim

/-- `c`, in a table of each layout. -/
theorem looksUp_iff_oneSymbol :
    ((oneSymbol [0x63]).LooksUp [0x63] ↔
      (oneSymbol [0x63]).m_IsGnuHash = true ∨ (oneSymbol [0x63]).linearScan [0x63] = none ∨
        (oneSymbol [0x63]).SearchesBucket [0x63]) ∧
    ((oneGnuSymbol [0x63]).LooksUp [0x63] ↔
      (oneGnuSymbol [0x63]).m_IsGnuHash = true ∨
        (oneGnuSymbol [0x63]).linearScan [0x63] = none ∨
        (oneGnuSymbol [0x63]).SearchesBucket [0x63]) :=
  ⟨looksUp_iff (wellFormed_oneSymbol (by decide)) (unambiguous_oneSymbol rfl rfl (by decide)),
    looksUp_iff (wellFormed_oneGnuSymbol _) (unambiguous_oneSymbol rfl rfl (by decide))⟩

/-- `ZZZZZW9p`, whose hash carries out of 32 bits. -/
def carryName : List CChar := [0x5a, 0x5a, 0x5a, 0x5a, 0x5a, 0x57, 0x39, 0x70]

/-- The symbol is in the table, but in another bucket than the one that is searched. -/
theorem not_looksUp : (oneSymbol carryName).WellFormed ∧
    (oneSymbol carryName).Unambiguous carryName ∧
    (oneSymbol carryName).linearScan carryName = some 1 ∧
    ¬ (oneSymbol carryName).LooksUp carryName := by
  have wellFormed := @wellFormed_oneSymbol carryName (by decide)
  have unambiguous := @unambiguous_oneSymbol carryName (oneSymbol carryName) rfl rfl (by decide)
  refine ⟨wellFormed, unambiguous, by decide, fun looksUp => ?_⟩
  have nothing : Ends ((oneSymbol carryName).getSymbolByName carryName) (.ok none) :=
    .of_succ (.of_forall fun fuel => rfl)
  cases looksUp.1.unique nothing

end SymbolTables

end Hakkun.Rtld
