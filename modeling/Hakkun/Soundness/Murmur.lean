import Hakkun.Soundness.MurmurWords

/-! # Murmur hashes in pieces

Pieces of whole blocks, and any piece behind them, leave the state of the one-shot hash. A string
fed up to its terminator is meant to count as if zero bytes filled its last block. The class of 64
bits has the tail of four bytes of the other one, so that it ignores what is behind the last whole
block. The class of 32 bits reads the string in place, with as many bits of its length as the
platform's fast integer has.
-/

namespace Hakkun.Util.Murmur

open Machine.Core Container

variable {platform : Platform} {width size : ℕ} {read : Read}

/-! ## Strings -/

/-- A string with zero bytes up to a whole number of blocks. -/
def padded (size : ℕ) (str : CString CChar) : List CChar :=
  chars str.data str.length.toNat ++
    List.replicate ((size - str.length.toNat % size) % size) 0

/-- Another string of the same length that differs in one character. -/
structure Altered (str other : CString CChar) (i : ℕ) : Prop where
  inside : i < str.length.toNat
  length : other.length = str.length
  elsewhere : ∀ j < str.length.toNat, j ≠ i → other.data j = str.data j
  differs : other.data i ≠ str.data i

/-- No byte of a string has its sign bit set before another one of the same block. -/
def SignsLast (size : ℕ) (str : CString CChar) : Prop :=
  ∀ i j, i < j → j < str.length.toNat → i / size = j / size → (str.data i).msb = false

theorem exists_altered {str : CString CChar} {i : ℕ} (inside : i < str.length.toNat) :
    ∃ other, Altered str other i ∧ ∀ j ≠ i, other.data j = str.data j := by
  obtain ⟨c, differs, nonzero⟩ : ∃ c : CChar, c ≠ str.data i ∧ c ≠ 0 := by
    rcases eq_or_ne (str.data i) 1 with one | other
    · exact ⟨2, by rw [one]; decide, by decide⟩
    · exact ⟨1, other.symm, by decide⟩
  have elsewhere (j : ℕ) (other : j ≠ i) : Function.update str.data i c j = str.data j :=
    Function.update_of_ne other ..
  refine ⟨⟨Function.update str.data i c, str.length, ?_, fun j before => ?_⟩,
    ⟨inside, rfl, fun j _ => elsewhere j, ?_⟩, elsewhere⟩
  · rw [elsewhere _ inside.ne']
    exact str.isTerminated
  · rcases eq_or_ne j i with rfl | other
    · rwa [Function.update_self]
    · rw [elsewhere j other]
      exact str.isFirst j before
  · change Function.update str.data i c i ≠ str.data i
    rwa [Function.update_self]

theorem readList_chars {data : ℕ → CChar} {amount offset : ℕ} (inside : offset < amount) :
    readList 0 (chars data amount) offset = data offset := by
  rw [readList, chars, List.getD_eq_getElem _ _ (by rwa [List.length_map, List.length_range]),
    List.getElem_map, List.getElem_range]

theorem length_chars (data : ℕ → CChar) (amount : ℕ) : (chars data amount).length = amount := by
  rw [chars, List.length_map, List.length_range]

theorem readList_padded {str : CString CChar} {offset : ℕ} (inside : offset < str.length.toNat) :
    readList 0 (padded size str) offset = str.data offset := by
  rw [padded, readList_append_left _ (by rwa [length_chars]), readList_chars inside]

theorem length_padded (str : CString CChar) : (padded size str).length =
    str.length.toNat + (size - str.length.toNat % size) % size := by
  rw [padded, List.length_append, length_chars, List.length_replicate]

theorem readList_padded_of_le {str : CString CChar} {offset : ℕ}
    (behind : str.length.toNat ≤ offset) : readList 0 (padded size str) offset = 0 := by
  rw [readList, padded, List.getD_append_right _ _ _ _ (by rwa [length_chars])]
  rcases Nat.lt_or_ge (offset - (chars str.data str.length.toNat).length)
    ((size - str.length.toNat % size) % size) with inside | outside
  · rw [List.getD_replicate _ inside]
  · rw [List.getD_eq_default _ _ (by rwa [List.length_replicate])]

/-- Padding differs from the altered string's in the altered character only. -/
theorem Altered.readList_padded {str other : CString CChar} {i offset : ℕ}
    (altered : Altered str other i) (apart : offset ≠ i) :
    readList 0 (padded size other) offset = readList 0 (padded size str) offset := by
  rcases Nat.lt_or_ge offset str.length.toNat with inside | outside
  · rw [Murmur.readList_padded inside, Murmur.readList_padded (altered.length ▸ inside),
      altered.elsewhere offset inside apart]
  · rw [readList_padded_of_le outside, readList_padded_of_le (altered.length ▸ outside)]

/-- How many blocks a padded string has. -/
theorem length_padded_div (positive : 0 < size) (str : CString CChar) :
    (padded size str).length / size =
      str.length.toNat / size + if str.length.toNat % size = 0 then 0 else 1 := by
  have split := Nat.div_add_mod str.length.toNat size
  have small := Nat.mod_lt str.length.toNat positive
  rw [length_padded]
  split_ifs with whole
  · rw [whole, Nat.sub_zero, Nat.mod_self, Nat.add_zero, Nat.add_zero]
  · rw [Nat.mod_eq_of_lt (by omega)]
    have total : str.length.toNat + (size - str.length.toNat % size) =
        size * (str.length.toNat / size + 1) := by
      rw [Nat.mul_succ]
      omega
    rw [total, Nat.mul_div_cancel_left _ positive]

/-! ## The words of a string -/

/-- The word of the characters behind the last whole block. -/
def tailWord (platform : Platform) (width size : ℕ) (str : CString CChar) : BitVec width :=
  joinBytes platform width size fun k =>
    if k < str.length.toNat % size then
      str.data (str.length.toNat - str.length.toNat % size + k)
    else 0

def tailWords (platform : Platform) (width size : ℕ) (str : CString CChar) :
    List (BitVec width) :=
  if str.length.toNat % size = 0 then [] else [tailWord platform width size str]

/-- A padded string has the words of its whole blocks, and that of its tail. -/
theorem words_padded (positive : 0 < size) (str : CString CChar) :
    words size (joinBytes platform width size) (readList 0 (padded size str))
        ((padded size str).length / size) =
      words size (joinBytes platform width size) str.data (str.length.toNat / size) ++
        tailWords platform width size str := by
  have split := Nat.div_add_mod' str.length.toNat size
  rw [length_padded_div positive, words_add]
  congr 1
  · apply words_congr joinBytes_ofBlock
    intro offset inside
    exact readList_padded (by omega)
  · rw [tailWords]
    split_ifs with whole
    · rfl
    · rw [words, List.range_one, List.map_singleton, tailWord]
      congr 1
      apply joinBytes_congr
      intro k _
      have base : k + 0 * size + str.length.toNat / size * size =
          str.length.toNat - str.length.toNat % size + k := by omega
      rw [base]
      split_ifs with inside
      · exact readList_padded (by omega)
      · exact readList_padded_of_le (by omega)

/-! ## A change of one character -/

section Altered

variable {str other : CString CChar} {i : ℕ}

/-- Words before the altered character stay the same. -/
theorem words_eq_of_le {count : ℕ} (elsewhere : ∀ j ≠ i, other.data j = str.data j)
    (before : count * size ≤ i) :
    words size (joinBytes platform width size) other.data count =
      words size (joinBytes platform width size) str.data count :=
  words_congr joinBytes_ofBlock fun offset inside => elsewhere offset (by omega)

theorem tailWords_eq (altered : Altered str other i)
    (elsewhere : ∀ j ≠ i, other.data j = str.data j)
    (before : i < str.length.toNat - str.length.toNat % size) :
    tailWords platform width size other = tailWords platform width size str := by
  rw [tailWords, tailWords, tailWord, tailWord, altered.length]
  congr 2
  apply joinBytes_congr
  intro k _
  rw [elsewhere _ (by omega)]

/-- A character behind a sign does not change the words. -/
theorem words_eq_of_sign {sign count : ℕ} (positive : 0 < size) (altered : Altered str other i)
    (signed : platform.charSigned = true) (before : sign < i) (block : sign / size = i / size)
    (isSign : (str.data sign).msb = true) :
    words size (joinBytes platform width size) (readList 0 (padded size other)) count =
      words size (joinBytes platform width size) (readList 0 (padded size str)) count := by
  apply List.map_congr_left
  intro index _
  rcases eq_or_ne index (i / size) with rfl | apart
  · have base : sign % size + i / size * size = sign := by
      rw [← block]
      exact Nat.mod_add_div' sign size
    refine (joinBytes_of_sign signed (Nat.mod_lt sign positive) ?_ fun k low => ?_).symm
    · rw [base, readList_padded (before.trans altered.inside), isSign]
    · rw [altered.readList_padded (by omega)]
  · apply joinBytes_congr
    intro k inside
    apply altered.readList_padded
    rintro rfl
    rw [Nat.add_mul_div_right _ _ positive, Nat.div_eq_of_lt inside, Nat.zero_add] at apart
    exact apart rfl

/-- Without signs before it, the altered character changes what padded words make of a state. -/
theorem foldl_words_padded_ne {mix : BitVec width → BitVec width → BitVec width}
    {state : BitVec width} (positive : 0 < size) (whole : 8 * size ≤ width)
    (states : ∀ w, Function.Injective fun s => mix s w) (mixed : ∀ s, Function.Injective (mix s))
    (altered : Altered str other i) (last : platform.charSigned = true → SignsLast size str) :
    (words size (joinBytes platform width size) (readList 0 (padded size other))
        ((padded size other).length / size)).foldl mix state ≠
      (words size (joinBytes platform width size) (readList 0 (padded size str))
        ((padded size str).length / size)).foldl mix state := by
  have total : (padded size other).length = (padded size str).length := by
    rw [length_padded, length_padded, altered.length]
  have place : i % size + i / size * size = i := Nat.mod_add_div' i size
  have inside : i / size < (padded size str).length / size := by
    rw [length_padded_div positive]
    have inside := altered.inside
    have split := Nat.div_add_mod' str.length.toNat size
    rw [Nat.div_lt_iff_lt_mul positive, Nat.add_mul]
    have small := Nat.mod_lt str.length.toNat positive
    split_ifs <;> omega
  rw [total]
  refine (foldl_words_ne joinBytes_ofBlock inside states mixed (fun offset apart => ?_) ?_).symm
  · refine (altered.readList_padded ?_).symm
    rintro rfl
    exact apart rfl
  · refine joinBytes_ne whole (Nat.mod_lt i positive) (fun signed k low => ?_) (fun k low => ?_) ?_
    · have below : k + i / size * size < i := by omega
      rw [readList_padded (below.trans altered.inside)]
      refine last signed _ i below altered.inside ?_
      rw [Nat.add_mul_div_right _ _ positive,
        Nat.div_eq_of_lt (low.trans (Nat.mod_lt i positive)), Nat.zero_add]
    · rw [altered.readList_padded (by omega)]
    · rw [place, readList_padded altered.inside,
        readList_padded (altered.length ▸ altered.inside)]
      exact altered.differs.symm

end Altered

end Hakkun.Util.Murmur
