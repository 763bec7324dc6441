import Hakkun.Machine.Core.Fuel
import Hakkun.Model.Sail.DataBlock
import Mathlib.Tactic.IntervalCases

/-! # What the search for a data block finds

A pattern is compared in integers of different sizes, which is the same as digit by digit: integers
of eight, four, two and one bytes follow each other from the first byte to the last, and nothing is
read behind the last one. The loop looks at every fourth address before the last window of the
region, so that it misses a match that ends with the region; its bound wraps around for a region at
a low address that is shorter than the pattern, and so does its step at the end of the address
space.
-/

namespace Hakkun.Sail

open Machine.Core (Ends)
open Ro (Byte Memory)

/-! ## Integers and bytes -/

private theorem readInt_mod (bytes : ℕ → Byte) (offset size : ℕ) :
    readInt bytes offset (size + 1) % 2 ^ 8 = (bytes offset).toNat := by
  have := (bytes offset).isLt
  rw [readInt]
  omega

private theorem readInt_div (bytes : ℕ → Byte) (offset size : ℕ) :
    readInt bytes offset (size + 1) / 2 ^ 8 = readInt bytes (offset + 1) size := by
  have := (bytes offset).isLt
  rw [readInt]
  omega

/-- A masked comparison of integers compares all bytes. -/
theorem readInt_masked_eq_iff (compare data mask : ℕ → Byte) (offset size : ℕ) :
    readInt compare offset size &&& readInt mask offset size =
        readInt data offset size &&& readInt mask offset size ↔
      ∀ i, offset ≤ i → i < offset + size → compare i &&& mask i = data i &&& mask i := by
  induction size generalizing offset with
  | zero =>
    constructor
    · intro _ i above below
      omega
    · exact fun _ => rfl
  | succ size ih =>
    have divided (a b : ℕ) : a = b ↔ a % 2 ^ 8 = b % 2 ^ 8 ∧ a / 2 ^ 8 = b / 2 ^ 8 := by omega
    have first : compare offset &&& mask offset = data offset &&& mask offset ↔
        (compare offset).toNat &&& (mask offset).toNat =
          (data offset).toNat &&& (mask offset).toNat := by
      rw [← BitVec.toNat_inj, BitVec.toNat_and, BitVec.toNat_and]
    rw [divided]
    simp only [Nat.and_mod_two_pow, Nat.and_div_two_pow, readInt_mod, readInt_div]
    rw [ih, ← first]
    constructor
    · rintro ⟨head, tail⟩ i above below
      rcases Nat.eq_or_lt_of_le above with rfl | later
      · exact head
      · exact tail i later (by omega)
    · intro all
      exact ⟨all offset le_rfl (by omega), fun i above below => all i (by omega) (by omega)⟩

/-- Integers that follow each other from one offset to another. -/
inductive Tiles : ℕ → ℕ → List Block → Prop
  | nil (offset : ℕ) : Tiles offset offset []
  | cons {offset stop : ℕ} {size : ℕ} {rest : List Block} (positive : 0 < size)
      (tiles : Tiles (offset + size) stop rest) : Tiles offset stop (⟨offset, size⟩ :: rest)

namespace Tiles

variable {start middle stop : ℕ} {one two : List Block}

theorem append (first : Tiles start middle one) (second : Tiles middle stop two) :
    Tiles start stop (one ++ two) := by
  induction first with
  | nil => exact second
  | cons positive _ ih => exact .cons positive (ih second)

theorem le (tiles : Tiles start stop one) : start ≤ stop := by
  induction tiles with
  | nil => exact le_rfl
  | cons _ _ ih => omega

theorem within (tiles : Tiles start stop one) {block : Block} (member : block ∈ one) :
    start ≤ block.offset ∧ 0 < block.size ∧ block.offset + block.size ≤ stop := by
  induction tiles with
  | nil => cases member
  | cons positive tiles ih =>
    have := tiles.le
    rcases List.mem_cons.mp member with rfl | later
    · exact ⟨le_rfl, positive, this⟩
    · obtain ⟨above, size, below⟩ := ih later
      exact ⟨by omega, size, below⟩

/-- Each byte is in some integer. -/
theorem exists_block (tiles : Tiles start stop one) {i : ℕ} (above : start ≤ i) (below : i < stop) :
    ∃ block ∈ one, block.offset ≤ i ∧ i < block.offset + block.size := by
  induction tiles with
  | nil => omega
  | @cons offset stop size rest positive _ ih =>
    rcases Nat.lt_or_ge i (offset + size) with here | later
    · exact ⟨_, List.mem_cons_self, above, here⟩
    · obtain ⟨block, member, inside⟩ := ih later below
      exact ⟨block, List.mem_cons_of_mem _ member, inside⟩

/-- The last integer ends where they end. -/
theorem exists_last (tiles : Tiles start stop one) (nonempty : start < stop) :
    ∃ block ∈ one, block.offset + block.size = stop := by
  obtain ⟨block, member, above, below⟩ :=
    tiles.exists_block (show start ≤ stop - 1 by omega) (by omega)
  have := tiles.within member
  exact ⟨block, member, by omega⟩

theorem wide (n : ℕ) : Tiles 0 (n * 8) ((List.range n).map fun i => ⟨i * 8, 8⟩) := by
  induction n with
  | zero => exact .nil 0
  | succ n ih =>
    rw [List.range_succ, List.map_append, Nat.succ_mul]
    exact ih.append (.cons (by decide) (.nil _))

theorem single (start n : ℕ) :
    Tiles start (start + n) ((List.range' start n).map fun i => ⟨i, 1⟩) := by
  induction n generalizing start with
  | zero => exact .nil start
  | succ n ih =>
    rw [List.range'_succ, List.map_cons, ← Nat.succ_add_eq_add_succ]
    exact .cons (by decide) (ih (start + 1))

theorem narrow {n processed : ℕ} (size : ℕ) (bound : processed ≤ n) (positive : 0 < size) :
    Tiles processed (narrowBlock n processed size).2 (narrowBlock n processed size).1 ∧
      (narrowBlock n processed size).2 ≤ n := by
  rw [narrowBlock]
  split
  · exact ⟨.cons positive (.nil _), by dsimp only; omega⟩
  · exact ⟨.nil _, bound⟩

end Tiles

theorem tiles_blocks (n : ℕ) : Tiles 0 n (blocks n) := by
  have four := Tiles.narrow 4 (Nat.div_mul_le_self n 8) (by decide)
  have two := Tiles.narrow 2 four.2 (by decide)
  have rest := Tiles.single (narrowBlock n (narrowBlock n (n / 8 * 8) 4).2 2).2
    (n - (narrowBlock n (narrowBlock n (n / 8 * 8) 4).2 2).2)
  rw [Nat.add_sub_cancel' two.2] at rest
  exact (((Tiles.wide (n / 8)).append four.1).append two.1).append rest

/-! ## Bytes and digits -/

/-- A digit of a sequence of bytes, the high one of each byte first. -/
def digit (bytes : ℕ → Byte) (i : ℕ) : ℕ :=
  if i % 2 = 0 then (bytes (i / 2)).toNat / 16 else (bytes (i / 2)).toNat % 16

/-- Each digit of the pattern that is not a wildcard is the digit of the bytes there. -/
def Matches (bytes : ℕ → Byte) (hex : List Char) : Prop :=
  ∀ i c, hex[i]? = some c → c ≠ '?' → digit bytes i = (digitValue c).toNat

theorem digitValue_lt {c : Char} (hexadecimal : isxdigit c = true) : (digitValue c).toNat < 16 := by
  have code : c = Char.ofNat c.toNat := (Char.ofNat_toNat c).symm
  have bounds : 48 ≤ c.toNat ∧ c.toNat ≤ 57 ∨ 97 ≤ c.toNat ∧ c.toNat ≤ 102 ∨
      65 ≤ c.toNat ∧ c.toNat ≤ 70 := by
    simp only [isxdigit, Bool.or_eq_true, decide_eq_true_eq, Char.isDigit, Bool.and_eq_true]
      at hexadecimal
    rcases hexadecimal with (digit | lower) | upper
    · exact .inl digit
    · exact .inr (.inl lower)
    · exact .inr (.inr upper)
  rw [code]
  rcases bounds with ⟨low, high⟩ | ⟨low, high⟩ | ⟨low, high⟩ <;>
    generalize c.toNat = n at low high <;> interval_cases n <;> decide

private theorem addDigit_cases {shift : ℕ} {keep : Byte} {c : Char} {entry result : Byte × Byte}
    (accepted : addDigit shift keep c entry = some result) :
    c = '?' ∧ result = (entry.1, entry.2 &&& keep) ∨
      c ≠ '?' ∧ (digitValue c).toNat < 16 ∧
        result = (entry.1 ||| digitValue c <<< shift, entry.2) := by
  rw [addDigit] at accepted
  split at accepted
  · exact .inl ⟨‹_›, (Option.some.inj accepted).symm⟩
  · rename_i other
    split at accepted
    · exact .inr ⟨other, digitValue_lt ‹_›, (Option.some.inj accepted).symm⟩
    · cases accepted

private theorem and_high (byte : Byte) : (byte &&& 0xF0).toNat = byte.toNat / 16 * 16 := by
  revert byte
  decide

private theorem and_low (byte : Byte) : (byte &&& 0x0F).toNat = byte.toNat % 16 := by
  revert byte
  decide

private theorem or_digits {high low : Byte} (first : high.toNat < 16) (second : low.toNat < 16) :
    (high <<< 4 ||| low).toNat = high.toNat * 16 + low.toNat := by
  rw [BitVec.toNat_or, BitVec.toNat_shiftLeft, Nat.mod_eq_of_lt (by rw [Nat.shiftLeft_eq]; omega),
    ← Nat.shiftLeft_add_eq_or_of_lt second, Nat.shiftLeft_eq]

/-- A masked comparison of a byte compares its two digits. -/
theorem masked_byte_eq_iff {high low : Char} {entry result : Byte × Byte}
    (first : addDigit 4 0x0F high (0, 0xFF) = some entry)
    (second : addDigit 0 0xF0 low entry = some result) (byte : Byte) :
    byte &&& result.2 = result.1 &&& result.2 ↔
      (high ≠ '?' → byte.toNat / 16 = (digitValue high).toNat) ∧
        (low ≠ '?' → byte.toNat % 16 = (digitValue low).toNat) := by
  have := byte.isLt
  have clear (value : Byte) : 0 ||| value = value := BitVec.zero_or
  have none (value : Byte) : value &&& 0 = 0 := BitVec.and_zero
  have all (value : Byte) : value &&& 0xFF = value := BitVec.and_allOnes
  rw [← BitVec.toNat_inj]
  obtain ⟨rfl, rfl⟩ | ⟨exactHigh, smallHigh, rfl⟩ := addDigit_cases first <;>
    obtain ⟨rfl, rfl⟩ | ⟨exactLow, smallLow, rfl⟩ := addDigit_cases second <;>
    dsimp only
  · rw [show (0xFF &&& 0x0F &&& 0xF0 : Byte) = 0 by decide, none, none]
    simp
  · rw [show (0xFF &&& 0x0F : Byte) = 0x0F by decide, and_low, clear, BitVec.shiftLeft_zero,
      and_low, Nat.mod_eq_of_lt smallLow]
    simp [exactLow]
  · have data := or_digits smallHigh (show (0 : Byte).toNat < 16 by decide)
    rw [BitVec.or_comm, clear] at data
    rw [show (0xFF &&& 0xF0 : Byte) = 0xF0 by decide, and_high, clear, and_high, data]
    simp only [exactHigh, ne_eq, not_false_eq_true, forall_const, not_true_eq_false, false_implies,
      and_true]
    rw [show (0 : Byte).toNat = 0 from rfl]
    omega
  · rw [all, all, clear, BitVec.shiftLeft_zero, or_digits smallHigh smallLow]
    simp only [exactHigh, exactLow, ne_eq, not_false_eq_true, forall_const]
    omega

private theorem digit_zero (bytes : ℕ → Byte) : digit bytes 0 = (bytes 0).toNat / 16 := rfl

private theorem digit_one (bytes : ℕ → Byte) : digit bytes 1 = (bytes 0).toNat % 16 := rfl

private theorem digit_add_two (bytes : ℕ → Byte) (i : ℕ) :
    digit bytes (i + 2) = digit (fun j => bytes (j + 1)) i := by
  rw [digit, digit, Nat.add_mod_right, Nat.add_div_right i (by decide)]

theorem matches_cons (bytes : ℕ → Byte) (high low : Char) (rest : List Char) :
    Matches bytes (high :: low :: rest) ↔
      ((high ≠ '?' → (bytes 0).toNat / 16 = (digitValue high).toNat) ∧
        (low ≠ '?' → (bytes 0).toNat % 16 = (digitValue low).toNat)) ∧
        Matches (fun i => bytes (i + 1)) rest := by
  constructor
  · intro all
    refine ⟨⟨fun exact_ => ?_, fun exact_ => ?_⟩, fun i c at_ exact_ => ?_⟩
    · rw [← digit_zero, all 0 high rfl exact_]
    · rw [← digit_one, all 1 low rfl exact_]
    · rw [← digit_add_two, all (i + 2) c at_ exact_]
  · rintro ⟨⟨first, second⟩, later⟩ i c at_ exact_
    match i with
    | 0 => cases at_; exact first exact_
    | 1 => cases at_; exact second exact_
    | i + 2 => rw [digit_add_two]; exact later i c at_ exact_

/-- The bytes and masks of an accepted pattern, by its pairs of digits. -/
theorem addPairs_spec {hex : List Char} (even : hex.length % 2 = 0) :
    ∀ {data mask : List Byte}, addPairs hex = some (data, mask) →
      data.length = hex.length / 2 ∧
        ∀ bytes : ℕ → Byte,
          (∀ i < data.length, bytes i &&& mask.getD i 0 = data.getD i 0 &&& mask.getD i 0) ↔
            Matches bytes hex := by
  induction hex using addPairs.induct with
  | case1 high low rest ih =>
    intro data mask accepted
    simp only [addPairs, Option.bind_eq_bind, Option.bind_eq_some_iff, Option.some.injEq]
      at accepted
    obtain ⟨entry, first, ⟨byte, byteMask⟩, second, ⟨out, outMask⟩, others, same⟩ := accepted
    obtain ⟨rfl, rfl⟩ := Prod.mk.inj same
    rw [List.length_cons, List.length_cons] at even
    obtain ⟨length, spec⟩ := ih (by omega) others
    refine ⟨by simp only [List.length_cons, length]; omega, fun bytes => ?_⟩
    rw [matches_cons, ← masked_byte_eq_iff first second, ← spec]
    constructor
    · intro all
      exact ⟨all 0 (Nat.succ_pos _), fun i inside => all (i + 1) (Nat.succ_lt_succ inside)⟩
    · rintro ⟨here, later⟩ i inside
      cases i with
      | zero => exact here
      | succ i => exact later i (Nat.lt_of_succ_lt_succ inside)
  | case2 hex other =>
    intro data mask accepted
    have empty : hex = [] := by
      match hex, other, even with
      | [], _, _ => rfl
      | high :: low :: rest, other, _ => exact (other high low rest rfl).elim
    subst empty
    cases accepted
    refine ⟨rfl, fun bytes => ⟨fun _ i c at_ => ?_, fun _ i inside => ?_⟩⟩
    · cases at_
    · cases inside

/-! ## Comparison with memory -/

variable {memory : Memory} {data maskData : List Byte} {address : Ptr}

/-- The bytes from an address on. -/
def bytesAt (memory : Memory) (address : Ptr) (i : ℕ) : Byte := memory (address + BitVec.ofNat 64 i)

theorem compareBlock_iff (block : Block) :
    compareBlock memory data maskData address block = true ↔
      ∀ i, block.offset ≤ i → i < block.offset + block.size →
        bytesAt memory address i &&& maskData.getD i 0 = data.getD i 0 &&& maskData.getD i 0 := by
  rw [compareBlock, beq_iff_eq]
  exact readInt_masked_eq_iff _ _ _ _ _

/-- The read of an integer of a pattern that is compared with an address. -/
def Block.read (block : Block) (address : Ptr) : Read :=
  ⟨address + BitVec.ofNat 64 block.offset, block.size⟩

theorem compareBlocks_fst (list : List Block) :
    (compareBlocks memory data maskData address list).1 = true ↔
      ∀ block ∈ list, compareBlock memory data maskData address block = true := by
  induction list with
  | nil => simp [compareBlocks]
  | cons block rest ih =>
    rw [compareBlocks, List.forall_mem_cons]
    split
    · simp only [*, true_and]
    · simp only [*, Bool.false_eq_true, false_and]

theorem mem_compareBlocks {list : List Block} {read : Read}
    (member : read ∈ (compareBlocks memory data maskData address list).2) :
    ∃ block ∈ list, read = block.read address := by
  induction list with
  | nil => cases member
  | cons block rest ih =>
    rw [compareBlocks] at member
    split at member
    · rcases List.mem_cons.mp member with rfl | later
      · exact ⟨block, List.mem_cons_self, rfl⟩
      · obtain ⟨other, among, same⟩ := ih later
        exact ⟨other, List.mem_cons_of_mem _ among, same⟩
    · cases List.mem_singleton.mp member
      exact ⟨block, List.mem_cons_self, rfl⟩

/-- The first integer is always read. -/
theorem head_mem_compareBlocks (block : Block) (rest : List Block) :
    block.read address ∈ (compareBlocks memory data maskData address (block :: rest)).2 := by
  rw [compareBlocks]
  split <;> exact List.mem_cons_self

/-- A comparison that does not fail reads everything. -/
theorem mem_compareBlocks_of_same {list : List Block}
    (same : (compareBlocks memory data maskData address list).1 = true) {block : Block}
    (member : block ∈ list) :
    block.read address ∈ (compareBlocks memory data maskData address list).2 := by
  induction list with
  | nil => cases member
  | cons head rest ih =>
    have equal := (compareBlocks_fst _).mp same
    rw [compareBlocks, if_pos (equal head List.mem_cons_self)] at same ⊢
    rcases List.mem_cons.mp member with rfl | later
    · exact List.mem_cons_self
    · exact List.mem_cons_of_mem _ (ih same later)

/-- The integers compare all bytes. -/
theorem compareMask_fst (n : ℕ) : (compareMask memory data maskData address n).1 = true ↔
    ∀ i < n, bytesAt memory address i &&& maskData.getD i 0 =
      data.getD i 0 &&& maskData.getD i 0 := by
  rw [compareMask, compareBlocks_fst]
  simp only [compareBlock_iff]
  have tiles := tiles_blocks n
  constructor
  · intro all i inside
    obtain ⟨block, member, above, below⟩ := tiles.exists_block (Nat.zero_le i) inside
    exact all block member i above below
  · intro all block member i _ below
    have := tiles.within member
    exact all i (by omega)

/-- A pattern that is accepted, with its bytes and masks. -/
structure Accepted (hex : List Char) (data maskData : List Byte) : Prop where
  parsed : hexStringToBytesWithMatch hex = some (data, maskData)
  /-- The text is one that fits in memory. -/
  short : hex.length < 2 ^ 64

namespace Accepted

variable {hex : List Char} (accepted : Accepted hex data maskData)

include accepted

theorem even : hex.length % 2 = 0 := by
  have parsed := accepted.parsed
  rw [hexStringToBytesWithMatch] at parsed
  split at parsed
  · cases parsed
  · omega

theorem spec : data.length = hex.length / 2 ∧
    ∀ bytes : ℕ → Byte,
      (∀ i < data.length, bytes i &&& maskData.getD i 0 = data.getD i 0 &&& maskData.getD i 0) ↔
        Matches bytes hex := by
  have parsed := accepted.parsed
  rw [hexStringToBytesWithMatch] at parsed
  rw [if_neg (by simp [accepted.even])] at parsed
  exact addPairs_spec accepted.even parsed

theorem length : data.length = hex.length / 2 := accepted.spec.1

theorem length_lt : data.length < 2 ^ 63 := by
  have := accepted.short
  rw [accepted.length]
  omega

/-- The comparison with memory is the one of all digits. -/
theorem compareMask_iff : (compareMask memory data maskData address data.length).1 = true ↔
    Matches (bytesAt memory address) hex := by
  rw [← accepted.spec.2]
  exact compareMask_fst _

end Accepted

/-- All reads are in the window. -/
theorem mem_compareMask {n : ℕ} {read : Read}
    (member : read ∈ (compareMask memory data maskData address n).2) :
    ∃ offset, read.address = address + BitVec.ofNat 64 offset ∧ 0 < read.size ∧
      offset + read.size ≤ n := by
  obtain ⟨block, among, rfl⟩ := mem_compareBlocks member
  obtain ⟨-, positive, below⟩ := (tiles_blocks n).within among
  exact ⟨block.offset, rfl, positive, below⟩

/-- The first byte of the window is read. -/
theorem first_mem_compareMask (memory : Memory) (data maskData : List Byte) (address : Ptr) {n : ℕ}
    (positive : 0 < n) :
    ∃ read ∈ (compareMask memory data maskData address n).2,
      read.address = address ∧ 0 < read.size := by
  have tiles := tiles_blocks n
  rw [compareMask]
  generalize blocks n = list at tiles
  cases tiles with
  | nil => omega
  | @cons _ _ size rest wide =>
    exact ⟨_, head_mem_compareBlocks ⟨0, size⟩ rest, BitVec.add_zero _, wide⟩

/-- The last byte of a window that matches is read. -/
theorem last_mem_compareMask {n : ℕ} (positive : 0 < n)
    (same : (compareMask memory data maskData address n).1 = true) :
    ∃ read ∈ (compareMask memory data maskData address n).2, ∃ offset,
      read.address = address + BitVec.ofNat 64 offset ∧ offset + read.size = n ∧ 0 < read.size := by
  obtain ⟨block, member, ends⟩ := (tiles_blocks n).exists_last positive
  exact ⟨_, mem_compareBlocks_of_same same member, block.offset, rfl, ends,
    ((tiles_blocks n).within member).2.1⟩

/-! ## The loop -/

section Loop

variable {stop search : Ptr} (fuel : ℕ)

theorem searchLoop_of_le (done : stop ≤ search) :
    searchLoop memory data maskData stop (fuel + 1) search = some (0, []) := by
  rw [searchLoop, if_neg (BitVec.not_lt.mpr done)]

theorem searchLoop_of_same (below : search < stop)
    (same : (compareMask memory data maskData search data.length).1 = true) :
    searchLoop memory data maskData stop (fuel + 1) search =
      some (search, (compareMask memory data maskData search data.length).2) := by
  rw [searchLoop, if_pos below]
  exact if_pos same

theorem searchLoop_of_differs (below : search < stop)
    (differs : ¬ (compareMask memory data maskData search data.length).1 = true) :
    searchLoop memory data maskData stop (fuel + 1) search =
      (searchLoop memory data maskData stop fuel (search + 4)).map fun (address, later) =>
        (address, (compareMask memory data maskData search data.length).2 ++ later) := by
  rw [searchLoop, if_pos below]
  exact if_neg differs

/-- A run that is always below the bound, and where each turn reads something bad or goes on to
another such turn, reads something bad before it returns. -/
theorem exists_bad_read (inside : Ptr → Prop) {bad : Read → Prop}
    (below : ∀ search, inside search → search < stop)
    (same : ∀ search, inside search →
      (compareMask memory data maskData search data.length).1 = true →
        ∃ read ∈ (compareMask memory data maskData search data.length).2, bad read)
    (differs : ∀ search, inside search →
      (∃ read ∈ (compareMask memory data maskData search data.length).2, bad read) ∨
        inside (search + 4)) {search : Ptr} (start : inside search) {address : Ptr}
    {reads : List Read}
    (returns : searchLoop memory data maskData stop fuel search = some (address, reads)) :
    ∃ read ∈ reads, bad read := by
  induction fuel generalizing search address reads with
  | zero => cases returns
  | succ fuel ih =>
    cases found : (compareMask memory data maskData search data.length).1 with
    | true =>
      rw [searchLoop_of_same fuel (below search start) found] at returns
      cases returns
      exact same search start found
    | false =>
      rw [searchLoop_of_differs fuel (below search start) (by simp [found]), Option.map_eq_some_iff]
        at returns
      obtain ⟨⟨_, later⟩, goes, joined⟩ := returns
      cases joined
      rcases differs search start with ⟨read, member, outside⟩ | next
      · exact ⟨read, List.mem_append_left _ member, outside⟩
      · obtain ⟨read, member, outside⟩ := ih next goes
        exact ⟨read, List.mem_append_right _ member, outside⟩

end Loop

/-! ## Regions -/

/-- A region of the address space that is searched. -/
structure Region where
  start : Ptr
  len : U64
  aligned : start.toNat % 4 = 0
  inSpace : start.toNat + len.toNat ≤ 2 ^ 64

namespace Region

variable (region : Region) (memory) {hex : List Char}

def Contains (read : Read) : Prop :=
  region.start.toNat ≤ read.address.toNat ∧
    read.address.toNat + read.size ≤ region.start.toNat + region.len.toNat

/-- Every fourth address of the region. -/
def window (k : ℕ) : Ptr := region.start + BitVec.ofNat 64 (4 * k)

/-- The pattern is the one of the memory at a window. -/
def MatchesAt (hex : List Char) (k : ℕ) : Prop := Matches (bytesAt memory (region.window k)) hex

/-- The whole pattern is in the region. -/
def Fits (hex : List Char) (k : ℕ) : Prop := 4 * k + hex.length / 2 ≤ region.len.toNat

/-- The address is the lowest one where the pattern matches inside the region, or zero. -/
def Finds (hex : List Char) (address : Ptr) : Prop :=
  (∃ k, region.Fits hex k ∧ region.MatchesAt memory hex k ∧
      (∀ j < k, ¬ region.MatchesAt memory hex j) ∧ address = region.window k) ∨
    (∀ k, region.Fits hex k → ¬ region.MatchesAt memory hex k) ∧ address = 0

/-- The search returns what it should find, and reads nothing outside the region. -/
def Searched (data maskData : List Byte) (hex : List Char) : Prop :=
  ∃ address reads,
    Ends (fun fuel => searchDataBlock memory data maskData fuel region.start region.len)
        (some (address, reads)) ∧
      region.Finds memory hex address ∧ ∀ read ∈ reads, region.Contains read

/-- Where the search does so. -/
structure Covered (hex : List Char) : Prop where
  /-- The bound of the loop is not below zero. -/
  bound : hex.length / 2 ≤ region.start.toNat + region.len.toNat
  /-- An empty pattern is not searched up to the end of the address space. -/
  nonempty : 0 < hex.length / 2 ∨ region.start.toNat + region.len.toNat < 2 ^ 64
  /-- A match that ends with the region is not the first one, or is at address zero. -/
  last : ∀ k, 4 * k + hex.length / 2 = region.len.toNat → region.MatchesAt memory hex k →
    (∃ j < k, region.MatchesAt memory hex j) ∨ region.start.toNat + 4 * k = 0
  /-- The loop comes to a match or to its bound before the end of the address space. -/
  stops : hex.length / 2 ≤ region.len.toNat →
    region.start.toNat + region.len.toNat - hex.length / 2 ≤ 2 ^ 64 - 4 ∨
      ∃ k, region.Fits hex k ∧ region.MatchesAt memory hex k

theorem window_zero : region.window 0 = region.start := BitVec.add_zero _

theorem window_succ (k : ℕ) : region.window (k + 1) = region.window k + 4 := by
  rw [window, window, Nat.mul_succ, BitVec.ofNat_add, BitVec.add_assoc]
  rfl

theorem window_toNat {k : ℕ} (small : region.start.toNat + 4 * k < 2 ^ 64) :
    (region.window k).toNat = region.start.toNat + 4 * k := by
  rw [window, BitVec.toNat_add, BitVec.toNat_ofNat]
  omega

variable {region memory}

/-- A comparison at a window that fits reads inside the region. -/
theorem Fits.contains {k : ℕ} (fits : region.Fits hex k) {data maskData : List Byte}
    (accepted : Accepted hex data maskData) {read : Read}
    (member : read ∈ (compareMask memory data maskData (region.window k) data.length).2) :
    region.Contains read := by
  obtain ⟨offset, address, positive, below⟩ := mem_compareMask member
  have space := region.inSpace
  rw [Fits, ← accepted.length] at fits
  have value : read.address.toNat = region.start.toNat + 4 * k + offset := by
    rw [address, BitVec.toNat_add, region.window_toNat (by omega), BitVec.toNat_ofNat]
    omega
  rw [Contains, value]
  omega

variable {data maskData : List Byte} (accepted : Accepted hex data maskData)

include accepted

theorem matchesAt_iff {k : ℕ} :
    (compareMask memory data maskData (region.window k) data.length).1 = true ↔
      region.MatchesAt memory hex k :=
  accepted.compareMask_iff

/-- The loop passes windows that do not match. -/
theorem skip {stop : Ptr} (count : ℕ)
    (passed : ∀ j < count, region.Fits hex j ∧ region.window j < stop ∧
      ¬ region.MatchesAt memory hex j) :
    ∃ reads, (∀ read ∈ reads, region.Contains read) ∧ ∀ fuel,
      searchLoop memory data maskData stop (count + fuel) region.start =
        (searchLoop memory data maskData stop fuel (region.window count)).map
          fun (address, later) => (address, reads ++ later) := by
  induction count with
  | zero =>
    refine ⟨[], by simp, fun fuel => ?_⟩
    rw [Nat.zero_add, region.window_zero]
    exact Option.map_id'.symm
  | succ count ih =>
    obtain ⟨reads, inside, run⟩ := ih fun j small => passed j (by omega)
    obtain ⟨fits, below, differs⟩ := passed count (Nat.lt_succ_self _)
    refine ⟨reads ++ (compareMask memory data maskData (region.window count) data.length).2, ?_, ?_⟩
    · intro read member
      rcases List.mem_append.mp member with before | here
      · exact inside read before
      · exact fits.contains accepted here
    · intro fuel
      rw [Nat.succ_add_eq_add_succ, run,
        searchLoop_of_differs fuel below (by rwa [matchesAt_iff accepted]), region.window_succ,
        Option.map_map]
      simp only [Function.comp_def, List.append_assoc]

/-- After passed windows the loop returns at one that matches. -/
theorem ends_of_match {stop : Ptr} {k : ℕ}
    (passed : ∀ j < k, region.Fits hex j ∧ region.window j < stop ∧
      ¬ region.MatchesAt memory hex j)
    (fits : region.Fits hex k) (below : region.window k < stop)
    (found : region.MatchesAt memory hex k) :
    ∃ reads, (∀ read ∈ reads, region.Contains read) ∧
      Ends (fun fuel => searchLoop memory data maskData stop fuel region.start)
        (some (region.window k, reads)) := by
  obtain ⟨reads, inside, run⟩ := skip accepted k passed
  refine ⟨reads ++ (compareMask memory data maskData (region.window k) data.length).2, ?_, ?_⟩
  · intro read member
    rcases List.mem_append.mp member with before | here
    · exact inside read before
    · exact fits.contains accepted here
  · filter_upwards [Filter.eventually_ge_atTop (k + 1)] with fuel enough
    obtain ⟨more, rfl⟩ := Nat.exists_eq_add_of_le enough
    rw [Nat.add_assoc, Nat.add_comm 1, run,
      searchLoop_of_same more below ((matchesAt_iff accepted).mpr found)]
    rfl

variable (memory) in
/-- After passed windows the loop ends at its bound. -/
theorem ends_of_stop {stop : Ptr} {count : ℕ}
    (passed : ∀ j < count, region.Fits hex j ∧ region.window j < stop ∧
      ¬ region.MatchesAt memory hex j)
    (done : stop ≤ region.window count) :
    ∃ reads, (∀ read ∈ reads, region.Contains read) ∧
      Ends (fun fuel => searchLoop memory data maskData stop fuel region.start)
        (some (0, reads)) := by
  obtain ⟨reads, inside, run⟩ := skip accepted count passed
  refine ⟨reads, inside, ?_⟩
  filter_upwards [Filter.eventually_ge_atTop (count + 1)] with fuel enough
  obtain ⟨more, rfl⟩ := Nat.exists_eq_add_of_le enough
  rw [Nat.add_assoc, Nat.add_comm 1, run, searchLoop_of_le more done]
  exact congrArg (fun reads => some ((0 : Ptr), reads)) (List.append_nil reads)

/-- The bound of the loop. -/
theorem stop_toNat (bound : hex.length / 2 ≤ region.start.toNat + region.len.toNat)
    (nonempty : 0 < hex.length / 2 ∨ region.start.toNat + region.len.toNat < 2 ^ 64) :
    (region.start + region.len - BitVec.ofNat 64 data.length).toNat =
      region.start.toNat + region.len.toNat - hex.length / 2 := by
  have space := region.inSpace
  have short := accepted.length_lt
  rw [BitVec.toNat_sub, BitVec.toNat_add, BitVec.toNat_ofNat, accepted.length]
  rw [accepted.length] at short
  omega

theorem searched_of_covered (covered : region.Covered memory hex) :
    region.Searched memory data maskData hex := by
  have space := region.inSpace
  have stop := stop_toNat accepted covered.bound covered.nonempty
  have positive := covered.nonempty
  have lower (j : ℕ) (small : 4 * j < region.len.toNat - hex.length / 2) :
      region.Fits hex j ∧
        region.window j < region.start + region.len - BitVec.ofNat 64 data.length := by
    rw [BitVec.lt_def, stop, region.window_toNat (by omega), Fits]
    omega
  by_cases found : ∃ k, 4 * k < region.len.toNat - hex.length / 2 ∧ region.MatchesAt memory hex k
  · classical
    obtain ⟨below, same⟩ := Nat.find_spec found
    have first (j : ℕ) (small : j < Nat.find found) : ¬ region.MatchesAt memory hex j :=
      fun earlier => Nat.find_min found small ⟨by omega, earlier⟩
    obtain ⟨reads, inside, ends⟩ := ends_of_match accepted
      (fun j small => ⟨(lower j (by omega)).1, (lower j (by omega)).2, first j small⟩)
      (lower _ below).1 (lower _ below).2 same
    exact ⟨_, reads, ends, .inl ⟨_, (lower _ below).1, same, first, rfl⟩, inside⟩
  · have none (j : ℕ) (small : 4 * j < region.len.toNat - hex.length / 2) :
        ¬ region.MatchesAt memory hex j := fun same => found ⟨j, small, same⟩
    have done : region.start + region.len - BitVec.ofNat 64 data.length ≤
        region.window ((region.len.toNat - hex.length / 2 + 3) / 4) := by
      have aligned := region.aligned
      have room : region.start.toNat + 4 * ((region.len.toNat - hex.length / 2 + 3) / 4) <
          2 ^ 64 := by
        rcases Nat.lt_or_ge region.len.toNat (hex.length / 2) with shorter | longer
        · omega
        · rcases covered.stops longer with small | ⟨k, fits, same⟩
          · omega
          · have := none k
            rw [Fits] at fits
            have : 4 * k = region.len.toNat - hex.length / 2 := by
              by_contra other
              exact none k (by omega) same
            omega
      rw [BitVec.le_def, stop, region.window_toNat room]
      omega
    obtain ⟨reads, inside, ends⟩ := ends_of_stop memory accepted
      (fun j small => ⟨(lower j (by omega)).1, (lower j (by omega)).2, none j (by omega)⟩) done
    refine ⟨0, reads, ends, ?_, inside⟩
    by_cases any : ∃ k, region.Fits hex k ∧ region.MatchesAt memory hex k
    · obtain ⟨k, fits, same⟩ := any
      have edge : 4 * k + hex.length / 2 = region.len.toNat := by
        by_contra other
        rw [Fits] at fits
        exact none k (by omega) same
      rcases covered.last k edge same with ⟨j, earlier, same⟩ | zero
      · exact (none j (by omega) same).elim
      · refine .inl ⟨k, fits, same, fun j earlier => by omega, ?_⟩
        apply BitVec.eq_of_toNat_eq
        rw [region.window_toNat (by omega), zero]
        rfl
    · exact .inr ⟨fun k fits same => any ⟨k, fits, same⟩, rfl⟩

/-- With the bound below zero the loop reads past the region. -/
theorem reads_past (short : region.start.toNat + region.len.toNat < hex.length / 2) {fuel : ℕ}
    {address : Ptr} {reads : List Read}
    (returns : searchDataBlock memory data maskData fuel region.start region.len =
      some (address, reads)) :
    ∃ read ∈ reads, ¬ region.Contains read := by
  have length := accepted.length
  have bound := accepted.length_lt
  have stop : (region.start + region.len - BitVec.ofNat 64 data.length).toNat =
      2 ^ 64 + region.start.toNat + region.len.toNat - data.length := by
    rw [BitVec.toNat_sub, BitVec.toNat_add, BitVec.toNat_ofNat]
    omega
  let inside (search : Ptr) : Prop := region.start.toNat ≤ search.toNat ∧
    search.toNat ≤ region.start.toNat + region.len.toNat + 3
  refine exists_bad_read fuel inside ?_ ?_ ?_ ⟨le_rfl, by omega⟩ returns
  · rintro search ⟨above, below⟩
    rw [BitVec.lt_def, stop]
    omega
  · rintro search ⟨above, below⟩ same
    obtain ⟨read, member, offset, at_, ends, positive⟩ :=
      last_mem_compareMask (by omega : 0 < data.length) same
    refine ⟨read, member, fun contained => ?_⟩
    have value : read.address.toNat = search.toNat + offset := by
      rw [at_, BitVec.toNat_add, BitVec.toNat_ofNat]
      omega
    have := contained.2
    omega
  · rintro search ⟨above, below⟩
    obtain ⟨read, member, at_, positive⟩ :=
      first_mem_compareMask memory data maskData search (by omega : 0 < data.length)
    by_cases contained : region.Contains read
    · have within := contained.2
      rw [at_] at within
      have next : (search + 4).toNat = search.toNat + 4 := by
        rw [BitVec.toNat_add, show (4 : Ptr).toNat = 4 from rfl]
        omega
      exact .inr (by constructor <;> omega)
    · exact .inl ⟨read, member, contained⟩

/-- Without a match, and with its bound after the last aligned address, the loop goes around the
address space. -/
theorem reads_around
    (far : 2 ^ 64 - 4 < region.start.toNat + region.len.toNat - hex.length / 2)
    (positive : 0 < hex.length / 2) (longer : hex.length / 2 ≤ region.len.toNat)
    (none : ∀ k, region.Fits hex k → ¬ region.MatchesAt memory hex k) {fuel : ℕ}
    {address : Ptr} {reads : List Read}
    (returns : searchDataBlock memory data maskData fuel region.start region.len =
      some (address, reads)) :
    ∃ read ∈ reads, ¬ region.Contains read := by
  have length := accepted.length
  have space := region.inSpace
  have aligned := region.aligned
  have stop : (region.start + region.len - BitVec.ofNat 64 data.length).toNat =
      region.start.toNat + region.len.toNat - hex.length / 2 :=
    stop_toNat accepted (by omega) (.inl positive)
  have next {search : Ptr} (lined : search.toNat % 4 = 0) : (search + 4).toNat % 4 = 0 := by
    rw [BitVec.toNat_add, show (4 : Ptr).toNat = 4 from rfl]
    omega
  have first (search : Ptr) :=
    first_mem_compareMask memory data maskData search (by omega : 0 < data.length)
  refine exists_bad_read fuel (fun search => search.toNat % 4 = 0) ?_ ?_ ?_ aligned returns
  · intro search lined
    have := search.isLt
    rw [BitVec.lt_def, stop]
    omega
  · intro search lined same
    have := search.isLt
    obtain ⟨read, member, at_, _⟩ := first search
    refine ⟨read, member, fun contained => ?_⟩
    have above := contained.1
    rw [at_] at above
    have window : search = region.window ((search.toNat - region.start.toNat) / 4) := by
      apply BitVec.eq_of_toNat_eq
      rw [region.window_toNat] <;> omega
    rw [window, matchesAt_iff accepted] at same
    refine none _ ?_ same
    rw [Fits]
    omega
  · intro search lined
    exact .inr (next lined)

omit accepted in
/-- Zero is only found where nothing is, or at address zero. -/
theorem Finds.zero (finds : region.Finds memory hex 0)
    (nonempty : 0 < hex.length / 2 ∨ region.start.toNat + region.len.toNat < 2 ^ 64) {k : ℕ}
    (fits : region.Fits hex k) (same : region.MatchesAt memory hex k) :
    (∃ j < k, region.MatchesAt memory hex j) ∨ region.start.toNat + 4 * k = 0 := by
  have space := region.inSpace
  rcases finds with ⟨least, _, found, first, address⟩ | ⟨none, -⟩
  · rcases Nat.lt_trichotomy least k with earlier | rfl | later
    · exact .inl ⟨least, earlier, found⟩
    · rw [Fits] at fits
      rw [← region.window_toNat (by omega), ← address]
      exact .inr rfl
    · exact (first k later same).elim
  · exact (none k fits same).elim

theorem matchesAt_of_empty (empty : hex.length / 2 = 0) (k : ℕ) :
    region.MatchesAt memory hex k := by
  have even := accepted.even
  obtain rfl : hex = [] := List.eq_nil_of_length_eq_zero (by omega)
  rintro i c ⟨⟩

theorem nonempty_of_searched (searched : region.Searched memory data maskData hex) :
    0 < hex.length / 2 ∨ region.start.toNat + region.len.toNat < 2 ^ 64 := by
  by_contra both
  have space := region.inSpace
  have length := accepted.length
  have all (k : ℕ) : region.MatchesAt memory hex k := matchesAt_of_empty accepted (by omega) k
  obtain ⟨address, reads, ends, finds, -⟩ := searched
  have stop : region.start + region.len - BitVec.ofNat 64 data.length = 0 := by
    apply BitVec.eq_of_toNat_eq
    rw [BitVec.toNat_sub, BitVec.toNat_add, BitVec.toNat_ofNat, show (0 : Ptr).toNat = 0 from rfl]
    omega
  have done : region.start + region.len - BitVec.ofNat 64 data.length ≤ region.window 0 := by
    rw [stop]
    exact BitVec.le_def.mpr (Nat.zero_le _)
  obtain ⟨_, -, ends'⟩ :=
    ends_of_stop memory accepted (fun j small => (Nat.not_lt_zero j small).elim) done
  cases ends.unique ends'
  rcases finds with ⟨k, -, -, first, address⟩ | ⟨none, -⟩
  · have value := congrArg BitVec.toNat address
    rcases Nat.eq_zero_or_pos k with rfl | positive
    · have := region.len.isLt
      rw [region.window_zero, show (0 : Ptr).toNat = 0 from rfl] at value
      omega
    · exact first 0 positive (all 0)
  · exact none 0 (by rw [Fits]; omega) (all 0)

theorem covered_of_searched (searched : region.Searched memory data maskData hex) :
    region.Covered memory hex := by
  have nonempty := nonempty_of_searched accepted searched
  obtain ⟨address, reads, ends, finds, inside⟩ := searched
  have space := region.inSpace
  obtain ⟨fuel, returns⟩ := ends.exists
  have bound : hex.length / 2 ≤ region.start.toNat + region.len.toNat := by
    by_contra short
    obtain ⟨read, member, outside⟩ := reads_past accepted (by omega) returns
    exact outside (inside read member)
  have stop := stop_toNat accepted bound nonempty
  refine ⟨bound, nonempty, fun k edge same => ?_, fun longer => ?_⟩
  · by_cases earlier : ∃ j < k, region.MatchesAt memory hex j
    · exact .inl earlier
    · have passed (j : ℕ) (small : j < k) : region.Fits hex j ∧
          region.window j < region.start + region.len - BitVec.ofNat 64 data.length ∧
            ¬ region.MatchesAt memory hex j := by
        refine ⟨by rw [Fits]; omega, ?_, fun same => earlier ⟨j, small, same⟩⟩
        rw [BitVec.lt_def, stop, region.window_toNat (by omega)]
        omega
      have done : region.start + region.len - BitVec.ofNat 64 data.length ≤ region.window k := by
        rw [BitVec.le_def, stop, region.window_toNat (by omega)]
        omega
      obtain ⟨_, -, ends'⟩ := ends_of_stop memory accepted passed done
      cases ends.unique ends'
      exact finds.zero nonempty (Nat.le_of_eq edge) same
  · by_contra neither
    obtain ⟨far, none⟩ := not_or.mp neither
    have positive : 0 < hex.length / 2 := by
      by_contra empty
      have empty : hex.length / 2 = 0 := by omega
      exact none ⟨0, by rw [Fits]; omega, matchesAt_of_empty accepted empty 0⟩
    obtain ⟨read, member, outside⟩ := reads_around accepted (by omega) positive longer
      (fun k fits same => none ⟨k, fits, same⟩) returns
    exact outside (inside read member)

end Region

/-- The search is right exactly where its bound does not wrap, no match that ends with the region is
the first one, and it ends before the address space does. -/
theorem searched_iff_covered (memory : Memory) {data maskData : List Byte} {hex : List Char}
    (region : Region) (accepted : Accepted hex data maskData) :
    region.Searched memory data maskData hex ↔ region.Covered memory hex :=
  ⟨Region.covered_of_searched accepted, Region.searched_of_covered accepted⟩

/-- A page of zeros, and a byte of them with a wildcard. -/
theorem searched_zeros :
    (⟨0x1000, 0x1001, by decide, by decide⟩ : Region).Searched (fun _ => 0) [0x00, 0x00]
      [0x0F, 0xFF] "?000".toList :=
  (searched_iff_covered _ _ ⟨by decide, by decide⟩).mpr
    ⟨by decide, .inl (by decide), fun k edge => by
      have : 4 * k + 2 = 0x1001 := edge
      omega, fun _ => .inl (by decide)⟩

/-- A region that is the pattern is not searched. -/
theorem not_searched :
    ¬ (⟨0x1000, 2, by decide, by decide⟩ : Region).Searched (fun _ => 0) [0x00, 0x00] [0x0F, 0xFF]
      "?000".toList := by
  intro searched
  have covered := Region.covered_of_searched ⟨by decide, by decide⟩ searched
  have found : (⟨0x1000, 2, by decide, by decide⟩ : Region).MatchesAt (fun _ => 0)
      "?000".toList 0 := by
    intro i c at_ exact_
    match i with
    | 0 => cases at_; contradiction
    | 1 | 2 | 3 => cases at_; rfl
    | i + 4 => cases at_
  rcases covered.last 0 (by decide) found with ⟨j, earlier, _⟩ | zero
  · omega
  · cases zero

end Hakkun.Sail

/-! ## The masked comparison -/

namespace Hakkun.Sail

open Ro (Byte Memory)

/-- Of every integer that is read, the data and the mask are read at the same place as the bytes
that are compared. -/
theorem compareMask_spec (memory : Memory) (compareData : Ptr) (data maskData : List Byte) (n : ℕ) :
    ((compareMask memory data maskData compareData n).1 = true ↔
        ∀ i < n, memory (compareData + BitVec.ofNat 64 i) &&& maskData.getD i 0 =
          data.getD i 0 &&& maskData.getD i 0) ∧
      Tiles 0 n (blocks n) ∧
      ∀ read ∈ (compareMask memory data maskData compareData n).2,
        ∃ block ∈ blocks n, read = block.read compareData ∧ block.offset + block.size ≤ n := by
  refine ⟨compareMask_fst n, tiles_blocks n, fun read member => ?_⟩
  obtain ⟨block, among, same⟩ := mem_compareBlocks member
  exact ⟨block, among, same, ((tiles_blocks n).within among).2.2⟩

end Hakkun.Sail
