import Mathlib.Data.BitVec
import Mathlib.Data.List.Nodup

/-! # Assembling

A source is a list of labels and data; data are bytes, or the distance of one label from another as
a word. The offset of a label is what the sizes before it add up to, whatever stands after it, and
an assembled source holds each of its parts at the offset of that part.
-/

namespace Hakkun.Machine

/-! ## Parts of an image -/

/-- An image holds some bytes at an offset. -/
def HoldsAt (image : List (BitVec 8)) (offset : ℕ) (bytes : List (BitVec 8)) : Prop :=
  ∃ before after, image = before ++ (bytes ++ after) ∧ before.length = offset

namespace HoldsAt

variable {image bytes first second : List (BitVec 8)} {offset : ℕ}

theorem left (holds : HoldsAt image offset (first ++ second)) : HoldsAt image offset first := by
  obtain ⟨before, after, rfl, here⟩ := holds
  exact ⟨before, second ++ after, by rw [List.append_assoc], here⟩

theorem right (holds : HoldsAt image offset (first ++ second)) :
    HoldsAt image (offset + first.length) second := by
  obtain ⟨before, after, rfl, rfl⟩ := holds
  exact ⟨before ++ first, after, by simp only [List.append_assoc], List.length_append⟩

theorem drop (holds : HoldsAt image offset bytes) :
    ∃ after, image.drop offset = bytes ++ after := by
  obtain ⟨before, after, rfl, rfl⟩ := holds
  exact ⟨after, List.drop_left⟩

theorem le_length (holds : HoldsAt image offset bytes) : offset + bytes.length ≤ image.length := by
  obtain ⟨before, after, rfl, rfl⟩ := holds
  rw [List.length_append, List.length_append]
  omega

theorem getElem? (holds : HoldsAt image offset bytes) {i : ℕ} (inside : i < bytes.length) :
    image[offset + i]? = bytes[i]? := by
  obtain ⟨before, after, rfl, rfl⟩ := holds
  rw [List.getElem?_append_right (Nat.le_add_right ..), Nat.add_sub_cancel_left,
    List.getElem?_append_left inside]

end HoldsAt

/-! ## Words -/

/-- The bytes of a word, the low one first. -/
def wordBytes (word : BitVec 32) : List (BitVec 8) :=
  [word.extractLsb' 0 8, word.extractLsb' 8 8, word.extractLsb' 16 8, word.extractLsb' 24 8]

/-- The word at an offset of an image. -/
def readWord (image : List (BitVec 8)) (offset : ℕ) : Option (BitVec 32) :=
  match image.drop offset with
  | first :: second :: third :: fourth :: _ => some (fourth ++ third ++ second ++ first)
  | _ => none

/-- The bytes of a distance, which has to fit into a word. -/
def distanceBytes (distance : ℤ) : Option (List (BitVec 8)) :=
  if -2 ^ 31 ≤ distance ∧ distance < 2 ^ 32 then some (wordBytes (BitVec.ofInt 32 distance))
  else none

theorem distanceBytes_eq_some {distance : ℤ} {bytes : List (BitVec 8)} :
    distanceBytes distance = some bytes ↔
      (-2 ^ 31 ≤ distance ∧ distance < 2 ^ 32) ∧ bytes = wordBytes (BitVec.ofInt 32 distance) := by
  rw [distanceBytes, Option.ite_none_right_eq_some, Option.some_inj, eq_comm (a := bytes)]

theorem readWord_of_holdsAt {image : List (BitVec 8)} {offset : ℕ} {word : BitVec 32}
    (holds : HoldsAt image offset (wordBytes word)) : readWord image offset = some word := by
  obtain ⟨after, rest⟩ := holds.drop
  rw [readWord, rest]
  change some _ = some word
  congr 1
  apply BitVec.eq_of_getLsbD_eq
  intro i bound
  simp only [BitVec.getLsbD_append, BitVec.getLsbD_extractLsb']
  grind

/-! ## Sources -/

/-- A part of a source. -/
inductive Fragment (Symbol : Type) where
  | label (symbol : Symbol)
  | data (bytes : List (BitVec 8))
  | difference (symbol base : Symbol)

namespace Fragment

variable {Symbol : Type}

/-- The symbol that is defined, if it is a label. -/
def symbol? : Fragment Symbol → Option Symbol
  | label symbol => some symbol
  | data _ | difference .. => none

def size : Fragment Symbol → ℕ
  | label _ => 0
  | data bytes => bytes.length
  | difference .. => 4

/-- The symbols that a source defines. -/
def symbols (source : List (Fragment Symbol)) : List Symbol := source.filterMap symbol?

def totalSize (source : List (Fragment Symbol)) : ℕ := (source.map size).sum

/-- The bytes, given the offsets of labels. -/
def encode (offset : Symbol → Option ℕ) : Fragment Symbol → Option (List (BitVec 8))
  | label _ => some []
  | data bytes => some bytes
  | difference symbol base => do
    let at_ ← offset symbol
    let from_ ← offset base
    distanceBytes (at_ - from_)

/-- The bytes of a whole source, part by part. -/
def encodeAll (offset : Symbol → Option ℕ) : List (Fragment Symbol) → Option (List (BitVec 8))
  | [] => some []
  | fragment :: rest => do
    let bytes ← fragment.encode offset
    let after ← encodeAll offset rest
    some (bytes ++ after)

variable [DecidableEq Symbol]

/-- The offset of the first label for a symbol. -/
def offset (symbol : Symbol) : List (Fragment Symbol) → Option ℕ
  | [] => none
  | fragment :: rest =>
    if fragment.symbol? = some symbol then some 0
    else (offset symbol rest).map (fragment.size + ·)

/-- The image of a source, which defines no symbol twice. -/
def assemble (source : List (Fragment Symbol)) : Option (List (BitVec 8)) :=
  if (symbols source).Nodup then encodeAll (fun symbol => offset symbol source) source else none

/-! ## What is assembled -/

section Encode

omit [DecidableEq Symbol]

variable {offset : Symbol → Option ℕ} {source : List (Fragment Symbol)}
  {fragment : Fragment Symbol} {image bytes : List (BitVec 8)}

theorem length_of_encode (encoded : fragment.encode offset = some bytes) :
    bytes.length = fragment.size := by
  cases fragment with
  | label symbol =>
    obtain rfl := Option.some.inj encoded
    rfl
  | data given =>
    obtain rfl := Option.some.inj encoded
    rfl
  | difference symbol base =>
    obtain ⟨at_, -, encoded⟩ := Option.bind_eq_some_iff.mp encoded
    obtain ⟨from_, -, encoded⟩ := Option.bind_eq_some_iff.mp encoded
    obtain ⟨-, rfl⟩ := distanceBytes_eq_some.mp encoded
    rfl

theorem encodeAll_cons :
    encodeAll offset (fragment :: source) = some image ↔
      ∃ bytes after, fragment.encode offset = some bytes ∧ encodeAll offset source = some after ∧
        image = bytes ++ after := by
  simp only [encodeAll, Option.bind_eq_bind, Option.bind_eq_some_iff, Option.some.injEq]
  constructor
  · rintro ⟨bytes, encoded, after, rest, rfl⟩
    exact ⟨bytes, after, encoded, rest, rfl⟩
  · rintro ⟨bytes, after, encoded, rest, rfl⟩
    exact ⟨bytes, encoded, after, rest, rfl⟩

theorem encodeAll_append {first second : List (Fragment Symbol)} :
    encodeAll offset (first ++ second) = some image ↔
      ∃ before after, encodeAll offset first = some before ∧ encodeAll offset second = some after ∧
        image = before ++ after := by
  induction first generalizing image with
  | nil => simp [encodeAll]
  | cons fragment rest ih =>
    rw [List.cons_append, encodeAll_cons]
    constructor
    · rintro ⟨bytes, tail, encoded, all, rfl⟩
      obtain ⟨before, after, here, there, rfl⟩ := ih.mp all
      have whole := encodeAll_cons.mpr ⟨bytes, before, encoded, here, rfl⟩
      exact ⟨bytes ++ before, after, whole, there, by rw [List.append_assoc]⟩
    · rintro ⟨before, after, here, there, rfl⟩
      obtain ⟨bytes, tail, encoded, inside, rfl⟩ := encodeAll_cons.mp here
      have rest := ih.mpr ⟨tail, after, inside, there, rfl⟩
      exact ⟨bytes, tail ++ after, encoded, rest, by rw [List.append_assoc]⟩

theorem length_of_encodeAll (encoded : encodeAll offset source = some image) :
    image.length = totalSize source := by
  induction source generalizing image with
  | nil =>
    obtain rfl := Option.some.inj encoded
    rfl
  | cons fragment rest ih =>
    obtain ⟨bytes, after, here, there, rfl⟩ := encodeAll_cons.mp encoded
    rw [List.length_append, length_of_encode here, ih there]
    rfl

@[simp] theorem totalSize_append (first second : List (Fragment Symbol)) :
    totalSize (first ++ second) = totalSize first + totalSize second := by
  simp [totalSize]

@[simp] theorem totalSize_cons (fragment : Fragment Symbol) (rest : List (Fragment Symbol)) :
    totalSize (fragment :: rest) = fragment.size + totalSize rest := rfl

@[simp] theorem totalSize_nil : totalSize ([] : List (Fragment Symbol)) = 0 := rfl

@[simp] theorem symbols_append (first second : List (Fragment Symbol)) :
    symbols (first ++ second) = symbols first ++ symbols second := List.filterMap_append

end Encode

variable {source before after : List (Fragment Symbol)} {symbol : Symbol}
  {image : List (BitVec 8)}

/-- The offset of a label that is the only one for its symbol so far. -/
theorem offset_of_not_mem (absent : symbol ∉ symbols before) :
    offset symbol (before ++ label symbol :: after) = some (totalSize before) := by
  induction before with
  | nil => exact if_pos rfl
  | cons fragment rest ih =>
    have other : fragment.symbol? ≠ some symbol := fun same =>
      absent (List.mem_filterMap.mpr ⟨fragment, List.mem_cons_self .., same⟩)
    have later : symbol ∉ symbols rest := fun there => by
      obtain ⟨found, member, same⟩ := List.mem_filterMap.mp there
      exact absent (List.mem_filterMap.mpr ⟨found, List.mem_cons_of_mem _ member, same⟩)
    rw [List.cons_append, offset, if_neg other, ih later]
    rfl

/-- Offsets depend on the labels and the sizes only. -/
theorem offset_congr {other : List (Fragment Symbol)}
    (same : source.map (fun part => (part.symbol?, part.size)) =
      other.map fun part => (part.symbol?, part.size)) :
    offset symbol source = offset symbol other := by
  induction source generalizing other with
  | nil =>
    obtain rfl := List.map_eq_nil_iff.mp same.symm
    rfl
  | cons fragment rest ih =>
    obtain ⟨head, tail, rfl, first, later⟩ := List.map_eq_cons_iff.mp same.symm
    rw [Prod.mk.injEq] at first
    rw [offset, offset, first.1, first.2, ih later.symm]

theorem nodup_of_assemble (assembled : assemble source = some image) : (symbols source).Nodup := by
  by_contra twice
  rw [assemble, if_neg twice] at assembled
  cases assembled

theorem encodeAll_of_assemble (assembled : assemble source = some image) :
    encodeAll (fun symbol => offset symbol source) source = some image := by
  rwa [assemble, if_pos (nodup_of_assemble assembled)] at assembled

theorem offset_of_nodup (distinct : (symbols (before ++ label symbol :: after)).Nodup) :
    offset symbol (before ++ label symbol :: after) = some (totalSize before) := by
  refine offset_of_not_mem fun there => ?_
  rw [symbols_append] at distinct
  exact List.disjoint_of_nodup_append distinct there (List.mem_cons_self ..)

end Fragment

end Hakkun.Machine
