import Hakkun.Soundness.Murmur

/-! # Feeding murmur hashes

What the objects of both classes promise about being fed in pieces and up to a terminator, and
when they keep it.
-/

namespace Hakkun.Util.Murmur

open Machine.Core Container

/-! ## The class of 32 bits -/

namespace HashMurmur32Impl

variable {platform : Platform}

/-- Feeding pieces in order. -/
def feedAll (hash : HashMurmur32Impl platform) (pieces : List (List CChar)) :
    HashMurmur32Impl platform :=
  pieces.foldl (fun hash piece => hash.feed (readDefault piece) (BitVec.ofNat _ piece.length)) hash

variable (platform) in
/-- Pieces that are whole blocks, the last one aside, hash as the whole string does. -/
def SplitsEqual : Prop :=
  ∀ (read : Read) (len : BitVec platform.fastBits) (seed : U32) (pieces : List (List CChar)),
    pieces.flatten = chars read len.toNat → (∀ piece ∈ pieces.dropLast, 4 ∣ piece.length) →
      ((make read len seed).feedAll pieces).finalize = hashMurmurImpl read len seed

/-- What feeding a string up to its terminator promises. -/
structure FeedsPadded (hash : HashMurmur32Impl platform) (str : CString CChar) : Prop where
  same (pieces : List (List CChar)) (all : pieces.flatten = padded 4 str)
    (whole : ∀ piece ∈ pieces, 4 ∣ piece.length ∧ piece.length < 2 ^ platform.fastBits) :
    hash.feedAll pieces = hash.feedNullTerminated str
  influences (other : CString CChar) (i : ℕ) (altered : Altered str other i) :
    (hash.feedNullTerminated other).mHashValue ≠ (hash.feedNullTerminated str).mHashValue

/-- A state after the whole blocks of a list. -/
abbrev absorbed (platform : Platform) (state : U32) (bytes : List CChar) : U32 :=
  absorb 4 (joinBytes platform 32 4) mix 0 state bytes

theorem feed_mHashValue (hash : HashMurmur32Impl platform) (data : Read)
    (len : BitVec platform.fastBits) : (hash.feed data len).mHashValue =
      (words 4 (joinBytes platform 32 4) data (len.toNat / 4)).foldl mix hash.mHashValue :=
  mixBlocks_eq ..

theorem feedAll_eq (hash : HashMurmur32Impl platform) (pieces : List (List CChar))
    (fits : ∀ piece ∈ pieces, piece.length < 2 ^ platform.fastBits) :
    hash.feedAll pieces =
      { hash with mHashValue := pieces.foldl (absorbed platform) hash.mHashValue } := by
  induction pieces generalizing hash with
  | nil => rfl
  | cons piece pieces ih =>
    rw [List.forall_mem_cons] at fits
    have length : (BitVec.ofNat platform.fastBits piece.length).toNat = piece.length :=
      Nat.mod_eq_of_lt fits.1
    have fed : (hash.feed (readDefault piece) (BitVec.ofNat _ piece.length)).mHashValue =
        absorbed platform hash.mHashValue piece := by
      rw [feed_mHashValue, length]
      rfl
    rw [feedAll, List.foldl_cons, ← feedAll, ih _ fits.2, fed]
    rfl

/-- Pieces of whole blocks, and one behind them, are absorbed as their concatenation. -/
theorem feedAll_eq_absorbed (hash : HashMurmur32Impl platform) (pieces : List (List CChar))
    (fits : ∀ piece ∈ pieces, piece.length < 2 ^ platform.fastBits)
    (whole : ∀ piece ∈ pieces.dropLast, 4 ∣ piece.length) :
    hash.feedAll pieces =
      { hash with mHashValue := absorbed platform hash.mHashValue pieces.flatten } := by
  rw [feedAll_eq hash pieces fits, foldl_absorb joinBytes_ofBlock (by decide) _ _ whole]

theorem splitsEqual : SplitsEqual platform := by
  intro read len seed pieces all whole
  have fits (piece : List CChar) (member : piece ∈ pieces) :
      piece.length < 2 ^ platform.fastBits := by
    have total := congrArg List.length all
    rw [length_chars] at total
    have part := (List.sublist_flatten_of_mem member).length_le
    have bound := len.isLt
    omega
  have same : words 4 (joinBytes platform 32 4) (readList 0 (chars read len.toNat))
      (len.toNat / 4) = words 4 (joinBytes platform 32 4) read (len.toNat / 4) :=
    words_congr joinBytes_ofBlock fun offset inside =>
      readList_chars (inside.trans_le (Nat.div_mul_le_self _ _))
  rw [feedAll_eq_absorbed _ _ fits whole, all, hashMurmurImpl, calcWithCallback, mixBlocks_eq,
    absorbed, absorb, length_chars, same]
  rfl

/-- The state after a string: whole blocks as far as the length fits, then the tail. -/
theorem feedNullTerminated_mHashValue {platform : StandardPlatform}
    (hash : HashMurmur32Impl platform.toPlatform) (str : CString CChar) :
    (hash.feedNullTerminated str).mHashValue =
      (words 4 (joinBytes platform.toPlatform 32 4) str.data
          (str.length.toNat % 2 ^ platform.fastBits / 4) ++
        tailWords platform.toPlatform 32 4 str).foldl mix hash.mHashValue := by
  have wide : 2 ^ 32 ≤ 2 ^ platform.fastBits := Nat.pow_le_pow_right (by decide) platform.wide
  have four : (BitVec.ofNat platform.fastBits 4).toNat = 4 := Nat.mod_eq_of_lt (by omega)
  have rest : (str.length &&& 3).toNat = str.length.toNat % 4 := by
    rw [BitVec.toNat_and]
    exact Nat.and_two_pow_sub_one_eq_mod _ 2
  rw [List.foldl_append, ← BitVec.toNat_setWidth, ← feed_mHashValue, feedNullTerminated, tailWords]
  have tail (k : ℕ) (_ : k < 4) : tailData str (str.length &&& 3) (k + 0 * 4) =
      if k < str.length.toNat % 4 then str.data (str.length.toNat - str.length.toNat % 4 + k)
      else 0 := by
    rw [Nat.zero_mul, Nat.add_zero, tailData, rest]
    split_ifs with before
    · apply congrArg str.data
      have bound := str.length.isLt
      rw [BitVec.toNat_add, BitVec.toNat_sub_of_le, rest, BitVec.toNat_ofNat]
      · omega
      · rw [BitVec.le_def, rest]
        omega
    · rfl
  have decides : str.length &&& 3 > 0 ↔ ¬ str.length.toNat % 4 = 0 := by
    rw [← rest, gt_iff_lt, BitVec.lt_def]
    exact Nat.pos_iff_ne_zero
  rw [if_congr decides rfl rfl, ite_not]
  split_ifs with whole
  · rfl
  · rw [feed_mHashValue, four, words, Nat.div_self (by decide), List.range_one, List.map_singleton,
      tailWord, joinBytes_congr tail]

theorem feedNullTerminated_eq (hash : HashMurmur32Impl platform) (str : CString CChar) :
    hash.feedNullTerminated str =
      { hash with mHashValue := (hash.feedNullTerminated str).mHashValue } := by
  rw [feedNullTerminated]
  split_ifs <;> rfl

section Terminated

variable {platform : StandardPlatform} {hash : HashMurmur32Impl platform.toPlatform}
  {str : CString CChar}

/-- A string whose length fits is absorbed with its padding. -/
theorem mHashValue_of_lt (fits : str.length.toNat < 2 ^ platform.fastBits) :
    (hash.feedNullTerminated str).mHashValue =
      absorbed platform.toPlatform hash.mHashValue (padded 4 str) := by
  rw [feedNullTerminated_mHashValue, Nat.mod_eq_of_lt fits, ← words_padded (by decide)]
  rfl

theorem feedsPadded_of_lt (fits : str.length.toNat < 2 ^ platform.fastBits)
    (last : platform.charSigned = true → SignsLast 4 str) : hash.FeedsPadded str := by
  constructor
  · intro pieces all whole
    have dropped : ∀ piece ∈ pieces.dropLast, 4 ∣ piece.length :=
      fun piece member => (whole piece (List.mem_of_mem_dropLast member)).1
    rw [feedAll_eq_absorbed _ _ (fun piece member => (whole piece member).2) dropped, all,
      feedNullTerminated_eq, mHashValue_of_lt fits]
  · intro other i altered
    rw [mHashValue_of_lt fits, mHashValue_of_lt (altered.length ▸ fits)]
    exact foldl_words_padded_ne (by decide) (by decide) mix_state_injective mix_injective altered
      last

/-- Where the length does not fit, the first character behind the blocks fed is ignored. -/
theorem FeedsPadded.length_lt (feeds : hash.FeedsPadded str) :
    str.length.toNat < 2 ^ platform.fastBits := by
  by_contra large
  obtain ⟨quarter, wide⟩ : 4 ∣ 2 ^ platform.fastBits :=
    pow_dvd_pow 2 ((by decide : 2 ≤ 32).trans platform.wide)
  have split := Nat.div_add_mod' str.length.toNat (2 ^ platform.fastBits)
  have first : 0 < str.length.toNat / 2 ^ platform.fastBits :=
    Nat.div_pos (Nat.not_lt.mp large) (Nat.two_pow_pos _)
  have turn : 2 ^ platform.fastBits ≤
      str.length.toNat / 2 ^ platform.fastBits * 2 ^ platform.fastBits :=
    Nat.le_mul_of_pos_left _ first
  have fours : 4 ∣ str.length.toNat / 2 ^ platform.fastBits * 2 ^ platform.fastBits :=
    Dvd.dvd.mul_left ⟨quarter, wide⟩ _
  have small := Nat.mod_lt str.length.toNat (Nat.two_pow_pos platform.fastBits)
  have before : str.length.toNat % 2 ^ platform.fastBits / 4 * 4 <
      str.length.toNat - str.length.toNat % 4 := by omega
  obtain ⟨other, altered, elsewhere⟩ := exists_altered (before.trans_le (Nat.sub_le ..))
  apply feeds.influences other _ altered
  rw [feedNullTerminated_mHashValue, feedNullTerminated_mHashValue,
    tailWords_eq altered elsewhere before, altered.length, words_eq_of_le elsewhere (le_refl _)]

/-- Where characters are signed, a sign hides the characters behind it. -/
theorem FeedsPadded.signsLast (feeds : hash.FeedsPadded str)
    (signed : platform.charSigned = true) : SignsLast 4 str := by
  intro i j before inside block
  by_contra sign
  obtain ⟨other, altered, -⟩ := exists_altered inside
  apply feeds.influences other _ altered
  rw [mHashValue_of_lt feeds.length_lt, mHashValue_of_lt (altered.length ▸ feeds.length_lt),
    absorbed, absorbed, absorb, absorb, length_padded, length_padded, altered.length,
    words_eq_of_sign (by decide) altered signed before block (Bool.eq_true_of_not_eq_false sign)]

theorem feedsPadded_iff : hash.FeedsPadded str ↔
    str.length.toNat < 2 ^ platform.fastBits ∧
      (platform.charSigned = true → SignsLast 4 str) :=
  ⟨fun feeds => ⟨feeds.length_lt, feeds.signsLast⟩, fun fits => feedsPadded_of_lt fits.1 fits.2⟩

end Terminated

end HashMurmur32Impl

/-- The one-shot hash of a string is that of symbol names. -/
theorem hashMurmur_eq (platform : Platform) (str : List CChar) (seed : U32) :
    hashMurmur platform str seed =
      @hashMurmurImpl platform (readDefault str) (BitVec.ofNat _ str.length) seed := by
  rw [hashMurmurImpl, HashMurmur32Impl.finalize, HashMurmur32Impl.calcWithCallback,
    HashMurmur32Impl.make, ← BitVec.ofNat_toNat]
  dsimp only
  rw [BitVec.toNat_ofNat]
  rfl

/-! ## The class of 64 bits -/

namespace HashMurmur64Impl

variable {platform : Platform} {hash : HashMurmur64Impl} {str : CString CChar}

/-- Feeding pieces in order. -/
def feedAll (platform : Platform) (hash : HashMurmur64Impl) (pieces : List (List CChar)) :
    HashMurmur64Impl :=
  pieces.foldl
    (fun hash piece => hash.feed platform (readDefault piece) (BitVec.ofNat _ piece.length)) hash

/-- Pieces that are whole blocks, the last one aside, hash as the whole string does. -/
def SplitsEqual (platform : Platform) : Prop :=
  ∀ (read : Read) (len : U64) (seed : U64) (pieces : List (List CChar)),
    pieces.flatten = chars read len.toNat → (∀ piece ∈ pieces.dropLast, 8 ∣ piece.length) →
      ((make read len seed).feedAll platform pieces).finalize platform =
        hashMurmur64Impl platform read len seed

/-- What feeding a string up to its terminator promises. -/
structure FeedsPadded (platform : Platform) (hash : HashMurmur64Impl) (str : CString CChar) :
    Prop where
  same (pieces : List (List CChar)) (all : pieces.flatten = padded 8 str)
    (whole : ∀ piece ∈ pieces, 8 ∣ piece.length ∧ piece.length < 2 ^ 64) :
    hash.feedAll platform pieces = hash.feedNullTerminated platform str
  influences (other : CString CChar) (i : ℕ) (altered : Altered str other i) :
    (hash.feedNullTerminated platform other).mHashValue ≠
      (hash.feedNullTerminated platform str).mHashValue

/-- A state after the whole blocks of a list. -/
abbrev absorbed (platform : Platform) (state : U64) (bytes : List CChar) : U64 :=
  absorb 8 (joinBytes platform 64 8) mix 0 state bytes

theorem feed_mHashValue (hash : HashMurmur64Impl) (data : Read) (len : U64) :
    (hash.feed platform data len).mHashValue =
      (words 8 (joinBytes platform 64 8) data (len.toNat / 8)).foldl mix hash.mHashValue :=
  mixBlocks_eq ..

theorem feedAll_eq (hash : HashMurmur64Impl) (pieces : List (List CChar))
    (fits : ∀ piece ∈ pieces, piece.length < 2 ^ 64) :
    hash.feedAll platform pieces =
      { hash with mHashValue := pieces.foldl (absorbed platform) hash.mHashValue } := by
  induction pieces generalizing hash with
  | nil => rfl
  | cons piece pieces ih =>
    rw [List.forall_mem_cons] at fits
    have length : (BitVec.ofNat 64 piece.length).toNat = piece.length := Nat.mod_eq_of_lt fits.1
    have fed : (hash.feed platform (readDefault piece) (BitVec.ofNat _ piece.length)).mHashValue =
        absorbed platform hash.mHashValue piece := by
      rw [feed_mHashValue, length]
      rfl
    rw [feedAll, List.foldl_cons, ← feedAll, ih _ fits.2, fed]
    rfl

theorem feedAll_eq_absorbed (hash : HashMurmur64Impl) (pieces : List (List CChar))
    (fits : ∀ piece ∈ pieces, piece.length < 2 ^ 64)
    (whole : ∀ piece ∈ pieces.dropLast, 8 ∣ piece.length) :
    hash.feedAll platform pieces =
      { hash with mHashValue := absorbed platform hash.mHashValue pieces.flatten } := by
  rw [feedAll_eq hash pieces fits, foldl_absorb joinBytes_ofBlock (by decide) _ _ whole]

theorem splitsEqual : SplitsEqual platform := by
  intro read len seed pieces all whole
  have fits (piece : List CChar) (member : piece ∈ pieces) : piece.length < 2 ^ 64 := by
    have total := congrArg List.length all
    rw [length_chars] at total
    have part := (List.sublist_flatten_of_mem member).length_le
    have bound := len.isLt
    omega
  have same : words 8 (joinBytes platform 64 8) (readList 0 (chars read len.toNat))
      (len.toNat / 8) = words 8 (joinBytes platform 64 8) read (len.toNat / 8) :=
    words_congr joinBytes_ofBlock fun offset inside =>
      readList_chars (inside.trans_le (Nat.div_mul_le_self _ _))
  rw [feedAll_eq_absorbed _ _ fits whole, all, hashMurmur64Impl, calcWithCallback, mixBlocks_eq,
    absorbed, absorb, length_chars, same]
  rfl

/-- The tail of four bytes is no block: only whole blocks of the string are absorbed. -/
theorem feedNullTerminated_eq (hash : HashMurmur64Impl) (str : CString CChar) :
    hash.feedNullTerminated platform str = { hash with
      mHashValue := (words 8 (joinBytes platform 64 8) str.data (str.length.toNat / 8)).foldl mix
        hash.mHashValue } := by
  rw [← feed_mHashValue, feedNullTerminated]
  split_ifs <;> rfl

/-- A string of whole blocks is absorbed. -/
theorem mHashValue_of_dvd (platform : Platform) (hash : HashMurmur64Impl)
    (whole : 8 ∣ str.length.toNat) :
    (hash.feedNullTerminated platform str).mHashValue =
      absorbed platform hash.mHashValue (padded 8 str) := by
  have none : tailWords platform 64 8 str = [] := if_pos (Nat.mod_eq_zero_of_dvd whole)
  rw [feedNullTerminated_eq, absorbed, absorb, words_padded (by decide), none, List.append_nil]

theorem feedsPadded_of_dvd (whole : 8 ∣ str.length.toNat)
    (last : platform.charSigned = true → SignsLast 8 str) : hash.FeedsPadded platform str := by
  constructor
  · intro pieces all blocks
    have dropped : ∀ piece ∈ pieces.dropLast, 8 ∣ piece.length :=
      fun piece member => (blocks piece (List.mem_of_mem_dropLast member)).1
    have state := mHashValue_of_dvd platform hash whole
    rw [feedAll_eq_absorbed _ _ (fun piece member => (blocks piece member).2) dropped, all, ← state,
      feedNullTerminated_eq]
  · intro other i altered
    rw [mHashValue_of_dvd _ _ whole, mHashValue_of_dvd _ _ (altered.length ▸ whole)]
    exact foldl_words_padded_ne (by decide) (by decide) mix_state_injective mix_injective altered
      last

/-- The last character of a string behind its whole blocks is ignored. -/
theorem FeedsPadded.dvd (feeds : hash.FeedsPadded platform str) : 8 ∣ str.length.toNat := by
  by_contra partially
  obtain ⟨other, altered, elsewhere⟩ :=
    exists_altered (show str.length.toNat - 1 < str.length.toNat by omega)
  apply feeds.influences other _ altered
  rw [feedNullTerminated_eq, feedNullTerminated_eq, altered.length,
    words_eq_of_le elsewhere (by omega)]

/-- Where characters are signed, a sign hides the characters behind it. -/
theorem FeedsPadded.signsLast (feeds : hash.FeedsPadded platform str)
    (signed : platform.charSigned = true) : SignsLast 8 str := by
  intro i j before inside block
  by_contra sign
  obtain ⟨other, altered, -⟩ := exists_altered inside
  apply feeds.influences other _ altered
  rw [mHashValue_of_dvd _ _ feeds.dvd, mHashValue_of_dvd _ _ (altered.length ▸ feeds.dvd),
    absorbed, absorbed, absorb, absorb, length_padded, length_padded, altered.length,
    words_eq_of_sign (by decide) altered signed before block (Bool.eq_true_of_not_eq_false sign)]

theorem feedsPadded_iff : hash.FeedsPadded platform str ↔
    8 ∣ str.length.toNat ∧ (platform.charSigned = true → SignsLast 8 str) :=
  ⟨fun feeds => ⟨feeds.dvd, feeds.signsLast⟩, fun fits => feedsPadded_of_dvd fits.1 fits.2⟩

end HashMurmur64Impl

/-! ## Both classes -/

/-- Fed pieces hash as the whole string. A string fed up to its terminator counts as padded, with
every character, exactly if its length fits the fast integer in the class of 32 bits, and is a
number of whole blocks in the class of 64 bits, and no sign is extended over another character. -/
theorem murmurFeeding_iff (platform : StandardPlatform) :
    (HashMurmur32Impl.SplitsEqual platform.toPlatform ∧
      HashMurmur64Impl.SplitsEqual platform.toPlatform) ∧
    ∀ str : CString CChar,
      (∀ hash : HashMurmur32Impl platform.toPlatform, hash.FeedsPadded str ↔
        str.length.toNat < 2 ^ platform.fastBits ∧
          (platform.charSigned = true → SignsLast 4 str)) ∧
      ∀ hash : HashMurmur64Impl, hash.FeedsPadded platform.toPlatform str ↔
        8 ∣ str.length.toNat ∧ (platform.charSigned = true → SignsLast 8 str) :=
  ⟨⟨HashMurmur32Impl.splitsEqual, HashMurmur64Impl.splitsEqual⟩, fun _ =>
    ⟨fun _ => HashMurmur32Impl.feedsPadded_iff, fun _ => HashMurmur64Impl.feedsPadded_iff⟩⟩

/-- A string of one character. -/
def oneChar : CString CChar where
  data i := if i = 0 then 0x61 else 0
  length := 1
  isTerminated := rfl
  isFirst := by decide

/-- A string of one character leaves the state of 64 bits alone. -/
theorem not_murmurFeeding :
    ¬ ∀ platform : StandardPlatform,
      (HashMurmur32Impl.SplitsEqual platform.toPlatform ∧
        HashMurmur64Impl.SplitsEqual platform.toPlatform) ∧
      ∀ str : CString CChar,
        (∀ hash : HashMurmur32Impl platform.toPlatform, hash.FeedsPadded str) ∧
        ∀ hash : HashMurmur64Impl, hash.FeedsPadded platform.toPlatform str := by
  intro feeding
  have feeds := ((feeding ⟨.aarch64, by decide⟩).2 oneChar).2
    (.make oneChar.data 1 HashMurmur64Impl.cDefaultSeed)
  exact absurd feeds.dvd (by decide)

end Hakkun.Util.Murmur
