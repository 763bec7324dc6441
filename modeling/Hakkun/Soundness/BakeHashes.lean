import Hakkun.Machine.Core.Run
import Hakkun.Model.Tools.BakeHashes
import Hakkun.Soundness.Hash
import Mathlib.Data.List.TakeWhile

/-! # What baking leaves of the string table

The hash of an undefined symbol is stored over its name, in a table whose strings may overlap. A
name of one or two characters is shorter than its hash and its terminator, and a name may be the end
of another string. A byte of the baked file is what the last symbol that covers it stores there, and
every byte that is still needed has to be that one.
-/

namespace Hakkun.Tools

open Machine Util

/-- An image with both sections. -/
structure Image where
  file : List CChar
  dynsym : List Symbol
  dynstrOffset : ℕ
  /-- Where the strings of needed libraries and the soname are in the table. -/
  dynamicStrings : List ℕ

namespace Image

variable (mmh3 : List CChar → U32) (image : Image)

/-- Where a string of the table is in the file. -/
def position (offset : ℕ) : ℕ := image.dynstrOffset + offset

def string (offset : ℕ) : List CChar := getString image.file (image.position offset)

/-- A symbol that is looked up by its name. -/
def Undefined (symbol : Symbol) : Prop := symbol.st_shndx = 0 ∧ symbol.st_name ≠ 0

instance (symbol : Symbol) : Decidable (Undefined symbol) := inferInstanceAs (Decidable (_ ∧ _))

/-- The strings that are still used as strings. -/
def kept : List ℕ :=
  (image.dynsym.filter fun symbol => symbol.st_shndx ≠ 0).map Symbol.st_name ++ image.dynamicStrings

/-- A file has the hashes of undefined symbols, and the strings that are kept with their ends. -/
structure Baked (file : List CChar) : Prop where
  hashes : ∀ symbol ∈ image.dynsym, Undefined symbol → ∀ i < 4,
    file[image.position symbol.st_name + i]? = (pack (mmh3 (image.string symbol.st_name)))[i]?
  strings : ∀ offset ∈ image.kept, ∀ i ≤ (image.string offset).length,
    file[image.position offset + i]? = image.file[image.position offset + i]?

/-- Baking succeeds and leaves what is needed. -/
def Correct : Prop :=
  ∃ file, bakeHashes mmh3 image.file image.dynsym image.dynstrOffset = .ok file ∧
    image.Baked mmh3 file

/-! ## The condition -/

/-- A symbol whose name is replaced. -/
def Bakes (symbol : Symbol) : Prop :=
  symbol.st_value = 0 ∧ symbol.st_name ≠ 0 ∧ image.string symbol.st_name ≠ []

instance (symbol : Symbol) : Decidable (image.Bakes symbol) :=
  inferInstanceAs (Decidable (_ ∧ _ ∧ _))

/-- What a symbol puts at a place of the file: its hash, and zeros for the rest of its name. -/
def writes (place : ℕ) (symbol : Symbol) : Option CChar :=
  let start := image.position symbol.st_name
  if ¬ image.Bakes symbol then none
  else if start ≤ place ∧ place < start + 4 then
    (pack (mmh3 (image.string symbol.st_name)))[place - start]?
  else if start ≤ place ∧ place < start + len (image.string symbol.st_name) then some 0
  else none

/-- What the last symbol that covers a place puts there. -/
def lastWrite (symbols : List Symbol) (place : ℕ) : Option CChar :=
  symbols.reverse.findSome? (image.writes mmh3 place)

/-- No store is outside of the file, the last symbol that covers a byte of a hash puts that byte
there, and what covers a byte of a string that is kept puts the same byte there. -/
structure Harmless : Prop where
  inside : ∀ symbol ∈ image.dynsym, image.Bakes symbol →
    image.position symbol.st_name + 4 ≤ image.file.length
  hashes : ∀ symbol ∈ image.dynsym, Undefined symbol → ∀ i < 4,
    ((image.lastWrite mmh3 image.dynsym (image.position symbol.st_name + i)).or
      image.file[image.position symbol.st_name + i]?) =
        (pack (mmh3 (image.string symbol.st_name)))[i]?
  strings : ∀ offset ∈ image.kept, ∀ i ≤ (image.string offset).length, ∀ byte,
    image.lastWrite mmh3 image.dynsym (image.position offset + i) = some byte →
      image.file[image.position offset + i]? = some byte

/-! ## One symbol -/

end Image

theorem len_le (name : List CChar) : len name ≤ name.length := List.countP_le_length

/-- A string ends within the file. -/
theorem length_getString {file : List CChar} {position : ℕ} (found : getString file position ≠ []) :
    position + (getString file position).length < file.length := by
  have terminated : (0 : CChar) ∈ file.drop position := by
    by_contra endless
    exact found (if_neg endless)
  have ends : (file.drop position).dropWhile (· ≠ 0) ≠ [] := by
    intro all
    have nonzero := List.dropWhile_eq_nil_iff.mp all 0 terminated
    exact absurd nonzero (by decide)
  have split : ((file.drop position).takeWhile (· ≠ 0)).length +
      ((file.drop position).dropWhile (· ≠ 0)).length = file.length - position := by
    rw [← List.length_append, List.takeWhile_append_dropWhile, List.length_drop]
  have positive := List.length_pos_iff.mpr ends
  rw [getString, if_pos terminated]
  omega

namespace Image

variable {mmh3 : List CChar → U32} {image : Image} {symbol : Symbol} {elfData after : List CChar}

theorem bakeSymbol_of_not_bakes (kept : ¬ image.Bakes symbol) :
    bakeSymbol mmh3 image.file image.dynstrOffset elfData symbol = some elfData := by
  rw [bakeSymbol]
  by_cases value : symbol.st_value = 0
  · rw [if_neg (not_not.mpr value)]
    by_cases nameless : symbol.st_name = 0
    · exact if_pos nameless
    · rw [if_neg nameless]
      refine if_pos ?_
      by_contra named
      exact kept ⟨value, nameless, named⟩
  · exact if_pos value

theorem bakeSymbol_of_bakes (bakes : image.Bakes symbol) :
    bakeSymbol mmh3 image.file image.dynstrOffset elfData symbol =
      (store elfData (image.position symbol.st_name)
        (List.replicate (len (image.string symbol.st_name)) 0)).bind fun elfData =>
          store elfData (image.position symbol.st_name)
            (pack (mmh3 (image.string symbol.st_name))) := by
  obtain ⟨value, named, found⟩ := bakes
  rw [bakeSymbol, if_neg (not_not.mpr value), if_neg named]
  exact if_neg found

@[simp] theorem length_pack (value : U32) : (pack value).length = 4 := rfl

theorem length_bakeSymbol
    (baked : bakeSymbol mmh3 image.file image.dynstrOffset elfData symbol = some after) :
    after.length = elfData.length := by
  by_cases bakes : image.Bakes symbol
  · rw [bakeSymbol_of_bakes bakes] at baked
    obtain ⟨between, first, second⟩ := Option.bind_eq_some_iff.mp baked
    exact (length_of_store second).trans (length_of_store first)
  · rw [bakeSymbol_of_not_bakes bakes] at baked
    rw [Option.some.inj baked]

/-- Only a hash can be stored outside of the file. -/
theorem bakeSymbol_isSome_iff (same : elfData.length = image.file.length) :
    (bakeSymbol mmh3 image.file image.dynstrOffset elfData symbol).isSome = true ↔
      (image.Bakes symbol → image.position symbol.st_name + 4 ≤ image.file.length) := by
  by_cases bakes : image.Bakes symbol
  · rw [bakeSymbol_of_bakes bakes]
    have inside : (store elfData (image.position symbol.st_name)
        (List.replicate (len (image.string symbol.st_name)) 0)).isSome = true := by
      rw [store_isSome_iff, List.length_replicate]
      intro _
      have bound : image.position symbol.st_name + (image.string symbol.st_name).length <
        image.file.length := length_getString bakes.2.2
      have := len_le (image.string symbol.st_name)
      omega
    obtain ⟨between, first⟩ := Option.isSome_iff_exists.mp inside
    rw [first, Option.bind_some, store_isSome_iff, length_pack, length_of_store first, same]
    constructor
    · exact fun fits _ => fits nofun
    · exact fun fits _ => fits bakes
  · rw [bakeSymbol_of_not_bakes bakes]
    exact iff_of_true rfl fun again => absurd again bakes

/-- What is at a place after one symbol. -/
theorem getElem?_bakeSymbol
    (baked : bakeSymbol mmh3 image.file image.dynstrOffset elfData symbol = some after)
    (place : ℕ) : after[place]? = (image.writes mmh3 place symbol).or elfData[place]? := by
  by_cases bakes : image.Bakes symbol
  · rw [bakeSymbol_of_bakes bakes] at baked
    obtain ⟨between, first, second⟩ := Option.bind_eq_some_iff.mp baked
    rw [getElem?_of_store second, getElem?_of_store first, writes, if_neg (not_not.mpr bakes),
      length_pack, List.length_replicate]
    by_cases hash : image.position symbol.st_name ≤ place ∧ place < image.position symbol.st_name + 4
    · rw [if_pos hash, if_pos hash]
      have bound : place - image.position symbol.st_name <
        (pack (mmh3 (image.string symbol.st_name))).length := by
        rw [length_pack]
        omega
      rw [List.getElem?_eq_getElem bound]
      rfl
    · rw [if_neg hash, if_neg hash]
      by_cases name : image.position symbol.st_name ≤ place ∧
          place < image.position symbol.st_name + len (image.string symbol.st_name)
      · rw [if_pos name, if_pos name, List.getElem?_replicate_of_lt (by omega)]
        rfl
      · rw [if_neg name, if_neg name]
        rfl
  · rw [bakeSymbol_of_not_bakes bakes] at baked
    rw [writes, if_pos bakes, Option.some.inj baked]
    rfl

/-! ## All symbols -/

variable {symbols : List Symbol}

theorem length_of_run
    (ran : run (bakeSymbol mmh3 image.file image.dynstrOffset) elfData symbols = some after) :
    after.length = elfData.length := by
  induction symbols generalizing elfData with
  | nil =>
    obtain rfl := Option.some.inj ran
    rfl
  | cons symbol rest ih =>
    obtain ⟨next, baked, ran⟩ := Option.bind_eq_some_iff.mp ran
    exact (ih ran).trans (length_bakeSymbol baked)

theorem run_isSome_iff (same : elfData.length = image.file.length) :
    (run (bakeSymbol mmh3 image.file image.dynstrOffset) elfData symbols).isSome = true ↔
      ∀ symbol ∈ symbols, image.Bakes symbol →
        image.position symbol.st_name + 4 ≤ image.file.length := by
  induction symbols generalizing elfData with
  | nil => exact iff_of_true rfl nofun
  | cons symbol rest ih =>
    have here : (bakeSymbol mmh3 image.file image.dynstrOffset elfData symbol).isSome = true ↔ _ :=
      bakeSymbol_isSome_iff same
    rw [run_cons, List.forall_mem_cons, ← here]
    cases baked : bakeSymbol mmh3 image.file image.dynstrOffset elfData symbol with
    | none => exact iff_of_false nofun fun both => nomatch both.1
    | some next =>
      rw [Option.bind_some, ih ((length_bakeSymbol baked).trans same)]
      exact (and_iff_right rfl).symm

/-- Every place has what the last symbol that covers it puts there. -/
theorem getElem?_of_run
    (ran : run (bakeSymbol mmh3 image.file image.dynstrOffset) elfData symbols = some after)
    (place : ℕ) : after[place]? = (image.lastWrite mmh3 symbols place).or elfData[place]? := by
  induction symbols generalizing elfData with
  | nil =>
    obtain rfl := Option.some.inj ran
    rfl
  | cons symbol rest ih =>
    obtain ⟨next, baked, ran⟩ := Option.bind_eq_some_iff.mp ran
    rw [ih ran, getElem?_bakeSymbol baked, ← Option.or_assoc, lastWrite, lastWrite,
      List.reverse_cons, List.findSome?_append, List.findSome?_singleton]

theorem bakeHashes_eq_ok_iff {file : List CChar} :
    bakeHashes mmh3 image.file image.dynsym image.dynstrOffset = .ok file ↔
      run (bakeSymbol mmh3 image.file image.dynstrOffset) image.file image.dynsym = some file := by
  rw [bakeHashes, run]
  cases image.dynsym.foldlM (bakeSymbol mmh3 image.file image.dynstrOffset) image.file with
  | none =>
    constructor
    · rintro ⟨⟩
    · rintro ⟨⟩
  | some elfData =>
    constructor
    · rintro ⟨⟩
      rfl
    · rintro ⟨⟩
      rfl

variable (image) in
/-- Every undefined symbol is baked, and no symbol stores over a string that is kept or over the hash
of another name. -/
structure Apart : Prop where
  inside : ∀ symbol ∈ image.dynsym, image.Bakes symbol →
    image.position symbol.st_name + 4 ≤ image.file.length
  bakes : ∀ symbol ∈ image.dynsym, Undefined symbol → image.Bakes symbol
  hashes : ∀ symbol ∈ image.dynsym, image.Bakes symbol → ∀ other ∈ image.dynsym, Undefined other →
    symbol.st_name = other.st_name ∨
      other.st_name + 4 ≤ symbol.st_name ∨
      symbol.st_name + max 4 (len (image.string symbol.st_name)) ≤ other.st_name
  strings : ∀ symbol ∈ image.dynsym, image.Bakes symbol → ∀ offset ∈ image.kept,
    offset + (image.string offset).length < symbol.st_name ∨
      symbol.st_name + max 4 (len (image.string symbol.st_name)) ≤ offset

/-- What a symbol stores is from the start of its name on. -/
theorem le_of_writes {place : ℕ} {byte : CChar} (written : image.writes mmh3 place symbol = some byte) :
    image.Bakes symbol ∧ image.position symbol.st_name ≤ place ∧
      place < image.position symbol.st_name + max 4 (len (image.string symbol.st_name)) := by
  rw [writes] at written
  obtain ⟨bakes, written⟩ := Option.ite_none_left_eq_some.mp written
  refine ⟨not_not.mp bakes, ?_⟩
  split at written
  · omega
  · obtain ⟨inside, -⟩ := Option.ite_none_right_eq_some.mp written
    omega

theorem exists_of_lastWrite {place : ℕ} {byte : CChar}
    (last : image.lastWrite mmh3 symbols place = some byte) :
    ∃ symbol ∈ symbols, image.writes mmh3 place symbol = some byte := by
  obtain ⟨symbol, member, written⟩ := List.exists_of_findSome?_eq_some last
  exact ⟨symbol, List.mem_reverse.mp member, written⟩

theorem writes_hash (bakes : image.Bakes symbol) {i : ℕ} (bound : i < 4) :
    image.writes mmh3 (image.position symbol.st_name + i) symbol =
      (pack (mmh3 (image.string symbol.st_name)))[i]? := by
  rw [writes, if_neg (not_not.mpr bakes), if_pos (by omega), Nat.add_sub_cancel_left]

/-- Names that are apart are baked right. -/
theorem Apart.harmless (apart : image.Apart) : image.Harmless mmh3 where
  inside := apart.inside
  hashes symbol member undefined i bound := by
    have bakes := apart.bakes symbol member undefined
    cases last : image.lastWrite mmh3 image.dynsym (image.position symbol.st_name + i) with
    | none =>
      have silent := List.findSome?_eq_none_iff.mp last symbol (List.mem_reverse.mpr member)
      rw [writes_hash bakes bound] at silent
      exact absurd bound (Nat.not_lt.mpr (List.getElem?_eq_none_iff.mp silent))
    | some byte =>
      obtain ⟨other, member', written⟩ := exists_of_lastWrite last
      obtain ⟨bakes', lower, upper⟩ := le_of_writes written
      rw [position, position] at lower upper
      rcases apart.hashes other member' bakes' symbol member undefined with same | before | behind
      · rw [← same, writes_hash bakes' bound] at written
        rw [← same, written]
        rfl
      · omega
      · omega
  strings offset member i bound byte last := by
    obtain ⟨symbol, member', written⟩ := exists_of_lastWrite last
    obtain ⟨bakes, lower, upper⟩ := le_of_writes written
    rw [position, position] at lower upper
    rcases apart.strings symbol member' bakes offset member with before | behind
    · omega
    · omega

end Image

end Hakkun.Tools
