import Hakkun.Model.Util.Hash
import Mathlib.Data.List.Basic
import Mathlib.Tactic.IntervalCases

/-! # Agreement of the symbol hashes

The tool and the runtime hash the same names on different platforms. They agree with each other,
and with MurmurHash3, as long as no byte has its sign bit set and the length fits 32 bits: a larger
byte is sign-extended by the tool in the murmur blocks and in every step of the ELF hash.
-/

namespace Hakkun.Util

/-- A word read from memory, low byte first. -/
def littleEndian (bytes : List CChar) : U32 :=
  BitVec.ofNat 32 (bytes.foldr (fun byte high => byte.toNat + 256 * high) 0)

/-- The mixing of one block by MurmurHash3_x86_32. -/
def murmur3Mix (k : U32) : U32 := (k * 0xcc9e2d51).rotateLeft 15 * 0x1b873593

/-- One block of MurmurHash3_x86_32. -/
def murmur3Round (h k : U32) : U32 := (h ^^^ murmur3Mix k).rotateLeft 13 * 5 + 0xe6546b64

/-- The whole words of a byte string. -/
def wholeWords : List CChar → List U32
  | a :: b :: c :: d :: rest => littleEndian [a, b, c, d] :: wholeWords rest
  | _ => []

/-- The bytes behind the whole words. -/
def tailBytes : List CChar → List CChar
  | _ :: _ :: _ :: _ :: rest => tailBytes rest
  | tail => tail

/-- The blocks and the tail of MurmurHash3_x86_32. -/
def murmur3Body (h : U32) (bytes : List CChar) : U32 :=
  let h := (wholeWords bytes).foldl murmur3Round h
  if tailBytes bytes = [] then h else h ^^^ murmur3Mix (littleEndian (tailBytes bytes))

/-- MurmurHash3_x86_32. -/
def murmur3 (seed : U32) (bytes : List CChar) : U32 :=
  let h := murmur3Body seed bytes ^^^ BitVec.ofNat 32 bytes.length
  let h := (h ^^^ h >>> 16) * 0x85ebca6b
  let h := (h ^^^ h >>> 13) * 0xc2b2ae35
  h ^^^ h >>> 16

/-- All hashes of a name agree between the tool and the runtime. -/
def HashesAgree (name : List CChar) : Prop :=
  Sail.hashMurmur .host name 0 = hashMurmur .aarch64 name 0 ∧
    hashMurmur .aarch64 name 0 = murmur3 0 name ∧
    Sail.rtldElfHash .host name = hashElfBucket .aarch64 name ∧
    Sail.djb2Hash name = hashDjb2 name

/-- No byte of a name has its sign bit set, and its length fits 32 bits. -/
def Plain (name : List CChar) : Prop := (∀ c ∈ name, c.toNat < 0x80) ∧ name.length < 2 ^ 32

theorem rotateLeft32_eq (x : U32) {r : ℕ} (bound : r < 32) : rotateLeft32 x r = x.rotateLeft r := by
  rw [rotateLeft32, BitVec.rotateLeft_def, Nat.mod_eq_of_lt bound]

theorem murmur3Mix_eq (k : U32) : rotateLeft32 (k * c1) 15 * c2 = murmur3Mix k := by
  rw [murmur3Mix, rotateLeft32_eq _ (by decide), c1, c2]

/-- A plain byte is widened to the same word on every platform. -/
theorem widen_of_lt (platform : Platform) {width : ℕ} {c : CChar}
    (plain : c.toNat < 0x80) : platform.widen width c = c.setWidth width := by
  unfold Platform.widen
  split
  · refine BitVec.signExtend_eq_setWidth_of_msb_false ?_
    rw [BitVec.msb_eq_decide, decide_eq_false_iff_not]
    omega
  · rfl

theorem readDefault_lt {name : List CChar} (plain : ∀ c ∈ name, c.toNat < 0x80) (offset : ℕ) :
    (readDefault name offset).toNat < 0x80 := by
  unfold readDefault
  rcases lt_or_ge offset name.length with inside | outside
  · rw [← List.getElem_eq_getD (h := inside) 0]
    exact plain _ (List.getElem_mem inside)
  · rw [List.getD_eq_getElem?_getD, List.getElem?_eq_none outside]
    decide

theorem readDefault_drop (a b c d : CChar) (rest : List CChar) (offset : ℕ) :
    readDefault (a :: b :: c :: d :: rest) (offset + 4) = readDefault rest offset := rfl

theorem append_eq_littleEndian (a b c d : CChar) : d ++ c ++ b ++ a = littleEndian [a, b, c, d] := by
  apply BitVec.eq_of_toNat_eq
  have := a.isLt
  have := b.isLt
  have := c.isLt
  have := d.isLt
  simp only [Math.toNat_append_eq_add, littleEndian, List.foldr_cons, List.foldr_nil,
    BitVec.toNat_ofNat]
  omega

theorem word_eq_littleEndian (a b c d : CChar) :
    (a.setWidth 32 <<< 0 ||| b.setWidth 32 <<< 8 ||| c.setWidth 32 <<< 16 |||
      d.setWidth 32 <<< 24 : U32) = littleEndian [a, b, c, d] := by
  rw [← append_eq_littleEndian]
  ext i bound
  simp only [BitVec.getElem_or, BitVec.getElem_shiftLeft, BitVec.getElem_setWidth]
  grind

/-- Missing high bytes of a tail are zero bytes. -/
theorem tail_eq_littleEndian (a b c : CChar) :
    (0 : U32) ^^^ c.setWidth 32 <<< 16 ^^^ b.setWidth 32 <<< 8 ^^^ a.setWidth 32 =
      littleEndian [a, b, c] := by
  have padded : littleEndian [a, b, c] = littleEndian [a, b, c, 0] := rfl
  rw [padded, ← append_eq_littleEndian]
  ext i bound
  simp only [BitVec.getElem_xor, BitVec.getElem_shiftLeft, BitVec.getElem_setWidth]
  grind

theorem tail_eq_littleEndian_two (a b : CChar) :
    (0 : U32) ^^^ b.setWidth 32 <<< 8 ^^^ a.setWidth 32 = littleEndian [a, b] := by
  have padded : littleEndian [a, b] = littleEndian [a, b, 0] := rfl
  rw [padded, ← tail_eq_littleEndian]
  rfl

theorem tail_eq_littleEndian_one (a : CChar) :
    (0 : U32) ^^^ a.setWidth 32 = littleEndian [a] := by
  have padded : littleEndian [a] = littleEndian [a, 0] := rfl
  rw [padded, ← tail_eq_littleEndian_two]
  rfl

namespace HashMurmur32Impl

variable {platform : Platform}

theorem block_zero {a b c d : CChar} {rest : List CChar} (h : U32)
    (plain : ∀ x ∈ a :: b :: c :: d :: rest, x.toNat < 0x80) :
    block platform (a :: b :: c :: d :: rest) h 0 =
      murmur3Round h (littleEndian [a, b, c, d]) := by
  have loaded : getBlock platform (a :: b :: c :: d :: rest) 0 =
      littleEndian [a, b, c, d] := by
    unfold getBlock
    simp only [widen_of_lt platform (readDefault_lt plain _)]
    exact word_eq_littleEndian a b c d
  simp only [block, loaded, murmur3Mix_eq, rotateLeft32_eq _ (show 13 < 32 by decide), c3,
    murmur3Round]

theorem block_succ (a b c d : CChar) (rest : List CChar) (h : U32) (i : ℕ) :
    block platform (a :: b :: c :: d :: rest) h (i + 1) = block platform rest h i := by
  have loaded : getBlock platform (a :: b :: c :: d :: rest) (i + 1) = getBlock platform rest i := by
    unfold getBlock
    simp only [Nat.add_mul, Nat.one_mul, ← Nat.add_assoc, readDefault_drop]
  unfold block
  rw [loaded]

theorem calcWithCallback_short (data : List CChar) {len : ℕ} (short : len < 4) (h : U32) :
    calcWithCallback platform data len h = h := by
  rw [calcWithCallback, Nat.div_eq_of_lt short]
  rfl

/-- Four bytes are one turn of the loop. -/
theorem calcWithCallback_cons {a b c d : CChar} {rest : List CChar} (h : U32)
    (plain : ∀ x ∈ a :: b :: c :: d :: rest, x.toNat < 0x80) :
    calcWithCallback platform (a :: b :: c :: d :: rest) (rest.length + 4) h =
      calcWithCallback platform rest rest.length (murmur3Round h (littleEndian [a, b, c, d])) := by
  unfold calcWithCallback
  rw [Nat.add_div_right _ (by decide), List.range_succ_eq_map, List.foldl_cons, List.foldl_map,
    block_zero h plain]
  simp only [Nat.succ_eq_add_one, block_succ]

/-- The bytes behind the last block, mixed in. -/
def mixTail (platform : Platform) (data : List CChar) (start count : ℕ) (h : U32) : U32 :=
  let third := platform.widen 32 (readDefault data (start + 2)) <<< 16
  let second := platform.widen 32 (readDefault data (start + 1)) <<< 8
  let first := platform.widen 32 (readDefault data start)
  let mix (k1 : U32) := rotateLeft32 (k1 * c1) 15 * c2
  match count with
  | 3 => h ^^^ mix (0 ^^^ third ^^^ second ^^^ first)
  | 2 => h ^^^ mix (0 ^^^ second ^^^ first)
  | 1 => h ^^^ mix (0 ^^^ first)
  | _ => h

theorem finalize_eq (data : List CChar) {len : ℕ} (short : len < 2 ^ 32) (h : U32) :
    finalize platform data len h =
      finalMix (mixTail platform data (len - len % 4) (len % 4) h ^^^ BitVec.ofNat 32 len) := by
  have start (k : ℕ) (inside : k < len % 4) :
      (BitVec.ofNat 32 (len - len % 4) + BitVec.ofNat 32 k).toNat = len - len % 4 + k := by
    have := Nat.mod_lt len (show 0 < 4 by decide)
    rw [BitVec.toNat_add, BitVec.toNat_ofNat, BitVec.toNat_ofNat]
    omega
  have first : 0 < len % 4 → (BitVec.ofNat 32 (len - len % 4) + 0).toNat = len - len % 4 := start 0
  have second : 1 < len % 4 → (BitVec.ofNat 32 (len - len % 4) + 1).toNat = len - len % 4 + 1 :=
    start 1
  have third : 2 < len % 4 → (BitVec.ofNat 32 (len - len % 4) + 2).toNat = len - len % 4 + 2 :=
    start 2
  have bound := Nat.mod_lt len (show 0 < 4 by decide)
  unfold finalize mixTail
  generalize len % 4 = count at first second third bound
  interval_cases count
  · simp only
  · simp only [first (by decide)]
  · simp only [first (by decide), second (by decide)]
  · simp only [first (by decide), second (by decide), third (by decide)]

theorem mixTail_drop (a b c d : CChar) (rest : List CChar) (start count : ℕ) (h : U32) :
    mixTail platform (a :: b :: c :: d :: rest) (start + 4) count h =
      mixTail platform rest start count h := by
  have drop (k : ℕ) :
      readDefault (a :: b :: c :: d :: rest) (start + 4 + k) = readDefault rest (start + k) := by
    rw [Nat.add_right_comm, readDefault_drop]
  unfold mixTail
  simp only [drop, readDefault_drop a b c d rest start]

/-- Blocks and tail together are those of MurmurHash3. -/
theorem mixTail_calcWithCallback (h : U32) (name : List CChar)
    (plain : ∀ c ∈ name, c.toNat < 0x80) :
    mixTail platform name (name.length - name.length % 4) (name.length % 4)
      (calcWithCallback platform name name.length h) = murmur3Body h name := by
  induction name using wholeWords.induct generalizing h with
  | case1 a b c d rest ih =>
    have inner : ∀ x ∈ rest, x.toNat < 0x80 := fun x member => plain x (by simp [member])
    have length : (a :: b :: c :: d :: rest).length = rest.length + 4 := rfl
    have start : rest.length + 4 - rest.length % 4 = rest.length - rest.length % 4 + 4 := by
      have := Nat.mod_le rest.length 4
      omega
    rw [length, Nat.add_mod_right, start, mixTail_drop, calcWithCallback_cons h plain,
      ih _ inner]
    rw [murmur3Body, murmur3Body, wholeWords, tailBytes, List.foldl_cons]
  | case2 name short =>
    match name, short with
    | [], _ => rfl
    | [a], _ =>
      have shape : mixTail platform [a] 0 1 h = h ^^^ rotateLeft32 (((0 : U32) ^^^
          platform.widen 32 a) * c1) 15 * c2 := rfl
      rw [show [a].length = 1 from rfl, calcWithCallback_short _ (by decide)]
      refine shape.trans ?_
      rw [widen_of_lt platform (plain a (by simp)), tail_eq_littleEndian_one, murmur3Mix_eq]
      simp only [murmur3Body, wholeWords, tailBytes, List.foldl_nil, reduceCtorEq, if_false]
    | [a, b], _ =>
      have shape : mixTail platform [a, b] 0 2 h = h ^^^ rotateLeft32 (((0 : U32) ^^^
          platform.widen 32 b <<< 8 ^^^ platform.widen 32 a) * c1) 15 * c2 := rfl
      rw [show [a, b].length = 2 from rfl, calcWithCallback_short _ (by decide)]
      refine shape.trans ?_
      rw [widen_of_lt platform (plain a (by simp)), widen_of_lt platform (plain b (by simp)),
        tail_eq_littleEndian_two, murmur3Mix_eq]
      simp only [murmur3Body, wholeWords, tailBytes, List.foldl_nil, reduceCtorEq, if_false]
    | [a, b, c], _ =>
      have shape : mixTail platform [a, b, c] 0 3 h = h ^^^ rotateLeft32 (((0 : U32) ^^^
          platform.widen 32 c <<< 16 ^^^ platform.widen 32 b <<< 8 ^^^ platform.widen 32 a) * c1) 15 *
            c2 := rfl
      rw [show [a, b, c].length = 3 from rfl, calcWithCallback_short _ (by decide)]
      refine shape.trans ?_
      rw [widen_of_lt platform (plain a (by simp)), widen_of_lt platform (plain b (by simp)),
        widen_of_lt platform (plain c (by simp)), tail_eq_littleEndian, murmur3Mix_eq]
      simp only [murmur3Body, wholeWords, tailBytes, List.foldl_nil, reduceCtorEq, if_false]
    | a :: b :: c :: d :: rest, short => exact (short a b c d rest rfl).elim

end HashMurmur32Impl

theorem fast_of_lt {platform : Platform} (wide : 32 ≤ platform.fastBits) {length : ℕ}
    (short : length < 2 ^ 32) : platform.fast length = length :=
  Nat.mod_eq_of_lt (short.trans_le (Nat.pow_le_pow_right (by decide) wide))

/-- The runtime's murmur hash of a plain name is MurmurHash3. -/
theorem hashMurmur_eq_murmur3 {platform : Platform} (wide : 32 ≤ platform.fastBits)
    {name : List CChar} (plain : Plain name) (seed : U32) :
    hashMurmur platform name seed = murmur3 seed name := by
  rw [hashMurmur, fast_of_lt wide plain.2, HashMurmur32Impl.finalize_eq name plain.2,
    HashMurmur32Impl.mixTail_calcWithCallback seed name plain.1]
  rfl

theorem sail_hashMurmurBlock_eq (platform : Platform) (data : List CChar) :
    Sail.hashMurmurBlock platform data = HashMurmur32Impl.block platform data := by
  funext h i
  rw [Sail.hashMurmurBlock, HashMurmur32Impl.block]

/-- The two murmur implementations are the same function of the platform. -/
theorem sail_hashMurmur_eq (platform : Platform) (name : List CChar) (seed : U32) :
    Sail.hashMurmur platform name seed = hashMurmur platform name seed := by
  simp only [Sail.hashMurmur, hashMurmur, Sail.hashMurmurImpl, HashMurmur32Impl.finalize,
    HashMurmur32Impl.calcWithCallback, sail_hashMurmurBlock_eq]
  generalize platform.fast name.length = len
  have bound := Nat.mod_lt len (show 0 < 4 by decide)
  generalize len % 4 = count at bound
  interval_cases count <;> simp

/-- The tool's and the runtime's step of the ELF hash. -/
theorem rtldElfHash_eq {name : List CChar} (plain : ∀ c ∈ name, c.toNat < 0x80)
    (first second : Platform) : Sail.rtldElfHash first name = hashElfBucket second name := by
  refine List.foldl_ext _ _ _ fun h c member => ?_
  unfold Sail.rtldElfHashStep hashElfBucketStep
  rw [widen_of_lt first (plain c member), widen_of_lt second (plain c member)]

/-- All hashes of a plain name agree. -/
theorem hashesAgree_of_plain (name : List CChar) (plain : Plain name) : HashesAgree name := by
  have runtime : hashMurmur .aarch64 name 0 = murmur3 0 name :=
    hashMurmur_eq_murmur3 le_rfl plain 0
  have tool : hashMurmur .host name 0 = murmur3 0 name :=
    hashMurmur_eq_murmur3 (by decide) plain 0
  refine ⟨?_, runtime, rtldElfHash_eq plain.1 _ _, rfl⟩
  rw [sail_hashMurmur_eq, tool, runtime]

theorem hashesAgree_ab : HashesAgree [0x61, 0x62] :=
  hashesAgree_of_plain [0x61, 0x62] ⟨by decide, by decide⟩

/-- One byte with its sign bit set is enough. -/
theorem not_hashesAgree_e9 : ¬ HashesAgree [0xe9] := by
  rintro ⟨same, -⟩
  revert same
  decide

end Hakkun.Util
