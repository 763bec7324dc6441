import Hakkun.Model.Tools.BuildNpdm
import Hakkun.Soundness.NroLayout

/-! # Descriptors of kernel capabilities

A descriptor has the number of its low ones as its type, a zero, and its fields above. The words of
the source are read back as the values that they were made of, except for interrupts, whose fields
start in the zero that ends the type.
-/

namespace Hakkun.Tools.BuildNpdm

open Elf2Nro (Byte packWord word)

section Decoding

/-- What descriptors are about. Syscalls are given one by one. -/
inductive Item where
  | kernelFlags (highest_thread_priority lowest_thread_priority lowest_cpu_id highest_cpu_id : ℕ)
  | syscall (number : ℕ)
  | map (address : ℕ) (is_ro : Bool) (size : ℕ) (is_io : Bool)
  | mapPage (page : ℕ)
  | mapRegion (regions : List (ℕ × Bool))
  | irqPair (one two : ℕ)
  | applicationType (value : ℕ)
  | minKernelVersion (value : ℕ)
  | handleTableSize (value : ℕ)
  | debugFlags (allow_debug force_debug_prod force_debug : Bool)
  deriving DecidableEq

/-- The number of ones below the lowest zero. -/
def trailingOnes : ℕ → ℕ → ℕ
  | 0, _ => 0
  | fuel + 1, word => if word % 2 = 1 then trailingOnes fuel (word / 2) + 1 else 0

def field (word lo width : ℕ) : ℕ := word / 2 ^ lo % 2 ^ width

def bitAt (word n : ℕ) : Bool := word / 2 ^ n % 2 == 1

/-- The items of a descriptor that is not one of two. -/
def wordItems (word : ℕ) : Option (List Item) :=
  match trailingOnes 32 word with
  | 3 => some [.kernelFlags (field word 4 6) (field word 10 6) (field word 16 8) (field word 24 8)]
  | 4 => some (((List.range 24).filter (bitAt (field word 5 24))).map fun n =>
      .syscall (24 * field word 29 3 + n))
  | 7 => some [.mapPage (field word 8 24)]
  | 10 => some [.mapRegion ((List.range 3).map fun i =>
      (field word (11 + 7 * i) 6, bitAt word (17 + 7 * i)))]
  | 11 => some [.irqPair (field word 12 10) (field word 22 10)]
  | 13 => some [.applicationType (field word 14 3)]
  | 14 => some [.minKernelVersion (field word 15 16)]
  | 15 => some [.handleTableSize (field word 16 10)]
  | 16 => some [.debugFlags (bitAt word 17) (bitAt word 18) (bitAt word 19)]
  | _ => none

/-- The items of descriptors; those of a mapping come in pairs. -/
def decode : List ℕ → Option (List Item)
  | [] => some []
  | word :: rest =>
    if trailingOnes 32 word = 6 then
      match rest with
      | [] => none
      | second :: rest =>
        if trailingOnes 32 second = 6 then
          (decode rest).map (.map (field word 7 24) (bitAt word 31) (field second 7 20)
            (bitAt second 31) :: ·)
        else none
    else (wordItems word).bind fun items => (decode rest).map (items ++ ·)

/-- The descriptors of a stream. -/
def descriptors : List Byte → List ℕ
  | a :: b :: c :: d :: rest => word [a, b, c, d] 0 :: descriptors rest
  | _ => []

theorem trailingOnes_eq {fuel k : ℕ} (enough : k < fuel) (rest : ℕ) :
    trailingOnes fuel (2 ^ k - 1 + 2 ^ (k + 1) * rest) = k := by
  induction k generalizing fuel with
  | zero =>
    obtain ⟨fuel, rfl⟩ := Nat.exists_eq_add_one.mpr enough
    rw [trailingOnes, if_neg (by omega)]
  | succ k ih =>
    obtain ⟨fuel, rfl⟩ := Nat.exists_eq_add_one.mpr (Nat.lt_of_le_of_lt (Nat.zero_le _) enough)
    have positive := Nat.two_pow_pos k
    have half : (2 ^ (k + 1) - 1 + 2 ^ (k + 1 + 1) * rest) / 2 =
        2 ^ k - 1 + 2 ^ (k + 1) * rest := by
      rw [Nat.pow_succ 2 (k + 1), Nat.mul_right_comm, Nat.pow_succ]
      omega
    have odd : (2 ^ (k + 1) - 1 + 2 ^ (k + 1 + 1) * rest) % 2 = 1 := by
      rw [Nat.pow_succ 2 (k + 1), Nat.mul_right_comm, Nat.pow_succ]
      omega
    rw [trailingOnes, if_pos odd, half, ih (by omega)]

theorem descriptors_append {value : ℕ} (fits : value < 2 ^ 32) (rest : List Byte) :
    descriptors (packWord value ++ rest) = value :: descriptors rest := by
  have read := Elf2Nro.word_packWord fits []
  rw [List.append_nil] at read
  exact congrArg (· :: descriptors rest) read

theorem descriptors_flatMap {words : List ℕ} (fit : ∀ value ∈ words, value < 2 ^ 32) :
    descriptors (words.flatMap packWord) = words := by
  induction words with
  | nil => rfl
  | cons value rest ih =>
    rw [List.forall_mem_cons] at fit
    rw [List.flatMap_cons, descriptors_append fit.1, ih fit.2]

theorem decode_cons {word : ℕ} {items : List Item} (single : trailingOnes 32 word ≠ 6)
    (read : wordItems word = some items) (rest : List ℕ) :
    decode (word :: rest) = (decode rest).map (items ++ ·) := by
  rw [decode.eq_def]
  refine (if_neg single).trans ?_
  rw [read, Option.bind_some]

theorem or_shiftLeft {word lo : ℕ} (below : word < 2 ^ lo) (value : ℕ) :
    word ||| value <<< lo = word + 2 ^ lo * value := by
  rw [Nat.or_comm, ← Nat.shiftLeft_add_eq_or_of_lt below, Nat.shiftLeft_eq, Nat.add_comm,
    Nat.mul_comm]

theorem flag_eq (value : Bool) (n : ℕ) : flag value n = value.toNat <<< n := by
  cases value
  · exact (Nat.zero_shiftLeft n).symm
  · rfl

theorem trailingOnes_of {word : ℕ} (k : ℕ) (enough : k < 32)
    (low : word % 2 ^ (k + 1) = 2 ^ k - 1) : trailingOnes 32 word = k := by
  have split : word = 2 ^ k - 1 + 2 ^ (k + 1) * (word / 2 ^ (k + 1)) := by
    rw [← low, Nat.mod_add_div]
  rw [split]
  exact trailingOnes_eq enough _

/-- Words that are read as items, whatever is behind them. -/
structure Decodes (words : List ℕ) (items : List Item) : Prop where
  fit : ∀ word ∈ words, word < 2 ^ 32
  read : ∀ rest, decode (words ++ rest) = (decode rest).map (items ++ ·)

theorem Decodes.nil : Decodes [] [] where
  fit := nofun
  read rest := by cases h : decode rest <;> simp [h]

theorem Decodes.append {words words' : List ℕ} {items items' : List Item}
    (first : Decodes words items) (second : Decodes words' items') :
    Decodes (words ++ words') (items ++ items') where
  fit := List.forall_mem_append.mpr ⟨first.fit, second.fit⟩
  read rest := by
    rw [List.append_assoc, first.read, second.read, Option.map_map]
    congr 1
    funext later
    exact (List.append_assoc _ _ _).symm

/-- A word with a number of low ones. -/
theorem Decodes.one {word : ℕ} {items : List Item} (k : ℕ) (single : k ≠ 6) (enough : k < 32)
    (low : word % 2 ^ (k + 1) = 2 ^ k - 1) (fits : word < 2 ^ 32)
    (read : trailingOnes 32 word = k → wordItems word = some items) : Decodes [word] items where
  fit := List.forall_mem_singleton.mpr fits
  read rest := by
    have ones := trailingOnes_of k enough low
    exact decode_cons (ones ▸ single) (read ones) rest

end Decoding

section Words

theorem decodes_kernel_flags {a b c d : ℕ} (one : a < 64) (two : b < 64) (three : c < 256)
    (four : d < 256) :
    Decodes [1 <<< 3 - 1 ||| a <<< 4 ||| b <<< 10 ||| c <<< 16 ||| d <<< 24]
      [.kernelFlags a b c d] := by
  have word : 1 <<< 3 - 1 ||| a <<< 4 ||| b <<< 10 ||| c <<< 16 ||| d <<< 24 =
      7 + 2 ^ 4 * a + 2 ^ 10 * b + 2 ^ 16 * c + 2 ^ 24 * d := by
    have tag : (1 <<< 3 - 1 : ℕ) = 7 := rfl
    rw [tag, or_shiftLeft (by omega) a, or_shiftLeft (by omega) b, or_shiftLeft (by omega) c,
      or_shiftLeft (by omega) d]
  rw [word]
  refine .one 3 (by decide) (by decide) (by omega) (by omega) fun ones => ?_
  rw [wordItems, ones]
  simp only [field]
  congr 3 <;> omega

theorem bool_lt (value : Bool) : value.toNat < 2 := by cases value <;> decide

theorem bit_eq {value : Bool} {n : ℕ} (bit : n = value.toNat) : (n == 1) = value := by
  subst bit
  cases value <;> rfl

theorem decodes_map {address size : ℕ} {is_ro is_io : Bool} (one : address < 2 ^ 24)
    (two : size < 2 ^ 20) :
    Decodes [1 <<< 6 - 1 ||| address <<< 7 ||| flag is_ro 31,
      1 <<< 6 - 1 ||| size <<< 7 ||| flag is_io 31] [.map address is_ro size is_io] := by
  have ro := bool_lt is_ro
  have io := bool_lt is_io
  have tag : (1 <<< 6 - 1 : ℕ) = 63 := rfl
  have first : 1 <<< 6 - 1 ||| address <<< 7 ||| flag is_ro 31 =
      63 + 2 ^ 7 * address + 2 ^ 31 * is_ro.toNat := by
    rw [tag, flag_eq, or_shiftLeft (by omega) address, or_shiftLeft (by omega) is_ro.toNat]
  have second : 1 <<< 6 - 1 ||| size <<< 7 ||| flag is_io 31 =
      63 + 2 ^ 7 * size + 2 ^ 31 * is_io.toNat := by
    rw [tag, flag_eq, or_shiftLeft (by omega) size, or_shiftLeft (by omega) is_io.toNat]
  rw [first, second]
  refine ⟨?_, fun rest => ?_⟩
  · simp only [List.forall_mem_cons]
    exact ⟨by omega, by omega, nofun⟩
  · have addressField : field (63 + 2 ^ 7 * address + 2 ^ 31 * is_ro.toNat) 7 24 = address := by
      rw [field]
      omega
    have sizeField : field (63 + 2 ^ 7 * size + 2 ^ 31 * is_io.toNat) 7 20 = size := by
      rw [field]
      omega
    have roBit : bitAt (63 + 2 ^ 7 * address + 2 ^ 31 * is_ro.toNat) 31 = is_ro :=
      bit_eq (by omega)
    have ioBit : bitAt (63 + 2 ^ 7 * size + 2 ^ 31 * is_io.toNat) 31 = is_io := bit_eq (by omega)
    rw [List.cons_append, List.cons_append, List.nil_append, decode.eq_def]
    simp only
    rw [if_pos (trailingOnes_of 6 (by decide) (by omega)),
      if_pos (trailingOnes_of 6 (by decide) (by omega)), addressField, sizeField, roBit, ioBit]
    rfl

/-- A tag and one field. -/
theorem tagged_eq {k value : ℕ} : 1 <<< k - 1 ||| value <<< (k + 1) =
    2 ^ k - 1 + 2 ^ (k + 1) * value := by
  have positive := Nat.two_pow_pos k
  rw [Nat.shiftLeft_eq, Nat.one_mul, or_shiftLeft (by rw [Nat.pow_succ]; omega)]

theorem decodes_application_type {value : ℕ} (small : value < 8) :
    Decodes [1 <<< 13 - 1 ||| value <<< 14] [.applicationType value] := by
  rw [tagged_eq]
  refine .one 13 (by decide) (by decide) (by omega) (by omega) fun ones => ?_
  rw [wordItems, ones]
  simp only [field]
  congr 3
  omega

theorem decodes_min_kernel_version {value : ℕ} (small : value < 2 ^ 16) :
    Decodes [1 <<< 14 - 1 ||| value <<< 15] [.minKernelVersion value] := by
  rw [tagged_eq]
  refine .one 14 (by decide) (by decide) (by omega) (by omega) fun ones => ?_
  rw [wordItems, ones]
  simp only [field]
  congr 3
  omega

theorem decodes_handle_table_size {value : ℕ} (small : value < 2 ^ 10) :
    Decodes [1 <<< 15 - 1 ||| value <<< 16] [.handleTableSize value] := by
  rw [tagged_eq]
  refine .one 15 (by decide) (by decide) (by omega) (by omega) fun ones => ?_
  rw [wordItems, ones]
  simp only [field]
  congr 3
  omega

theorem decodes_debug_flags (allow_debug force_debug_prod force_debug : Bool) :
    Decodes [1 <<< 16 - 1 ||| flag allow_debug 17 ||| flag force_debug_prod 18 |||
      flag force_debug 19] [.debugFlags allow_debug force_debug_prod force_debug] := by
  cases allow_debug <;> cases force_debug_prod <;> cases force_debug <;>
    exact .one 16 (by decide) (by decide) (by decide) (by decide) fun _ => by decide

/-- The fields of the regions, as they are added. -/
def regionFields : List (ℕ × Bool) → ℕ → ℕ → ℕ
  | [], _, cap => cap
  | (region_type, is_ro) :: rest, i, cap =>
    regionFields rest (i + 1) (cap ||| region_type <<< (11 + 7 * i) ||| flag is_ro (17 + 7 * i))

/-- Three regions, those that are left out being zero. -/
def padRegions (regions : List (ℕ × Bool)) : List (ℕ × Bool) :=
  (regions ++ List.replicate 3 (0, false)).take 3

theorem regionFields_pad {regions : List (ℕ × Bool)} (few : regions.length ≤ 3) :
    regionFields (padRegions regions) 0 (1 <<< 10 - 1) =
      regionFields regions 0 (1 <<< 10 - 1) := by
  match regions with
  | [] => rfl
  | [_] => simp [padRegions, List.replicate, regionFields, flag]
  | [_, _] => simp [padRegions, List.replicate, regionFields, flag]
  | [_, _, _] => rfl
  | _ :: _ :: _ :: _ :: _ => simp only [List.length_cons] at few; omega

theorem decodes_three {a b c : ℕ} {r s t : Bool} (one : a < 64) (two : b < 64) (three : c < 64) :
    Decodes [regionFields [(a, r), (b, s), (c, t)] 0 (1 <<< 10 - 1)]
      [.mapRegion [(a, r), (b, s), (c, t)]] := by
  have first := bool_lt r
  have second := bool_lt s
  have third := bool_lt t
  have tag : (1 <<< 10 - 1 : ℕ) = 1023 := rfl
  have word : regionFields [(a, r), (b, s), (c, t)] 0 (1 <<< 10 - 1) = 1023 + 2 ^ 11 * a +
      2 ^ 17 * r.toNat + 2 ^ 18 * b + 2 ^ 24 * s.toNat + 2 ^ 25 * c + 2 ^ 31 * t.toNat := by
    simp only [regionFields, flag_eq, tag]
    rw [or_shiftLeft (by omega) a, or_shiftLeft (by omega) r.toNat, or_shiftLeft (by omega) b,
      or_shiftLeft (by omega) s.toNat, or_shiftLeft (by omega) c, or_shiftLeft (by omega) t.toNat]
  rw [word]
  refine .one 10 (by decide) (by decide) (by omega) (by omega) fun ones => ?_
  rw [wordItems, ones]
  generalize value : 1023 + 2 ^ 11 * a + 2 ^ 17 * r.toNat + 2 ^ 18 * b + 2 ^ 24 * s.toNat +
    2 ^ 25 * c + 2 ^ 31 * t.toNat = v
  have types : field v 11 6 = a ∧ field v 18 6 = b ∧ field v 25 6 = c := by
    simp only [field]
    omega
  have flags : bitAt v 17 = r ∧ bitAt v 24 = s ∧ bitAt v 31 = t :=
    ⟨bit_eq (by omega), bit_eq (by omega), bit_eq (by omega)⟩
  show some [Item.mapRegion [(field v 11 6, bitAt v 17), (field v 18 6, bitAt v 24),
    (field v 25 6, bitAt v 31)]] = _
  rw [types.1, types.2.1, types.2.2, flags.1, flags.2.1, flags.2.2]

theorem decodes_map_region {regions : List (ℕ × Bool)} (few : regions.length ≤ 3)
    (small : ∀ region ∈ regions, region.1 < 64) :
    Decodes [regionFields regions 0 (1 <<< 10 - 1)] [.mapRegion (padRegions regions)] := by
  rw [← regionFields_pad few]
  have padded : ∀ region ∈ padRegions regions, region.1 < 64 := by
    intro region member
    rcases List.mem_append.mp (List.mem_of_mem_take member) with given | zero
    · exact small region given
    · rw [List.eq_of_mem_replicate zero]
      decide
  have three : (padRegions regions).length = 3 := by
    simp [padRegions]
  match padRegions regions, three, padded with
  | [(a, r), (b, s), (c, t)], _, padded =>
    simp only [List.forall_mem_cons] at padded
    exact decodes_three padded.1 padded.2.1 padded.2.2.1

/-- An entry for interrupts starts a bit too low, in the zero that ends its type. -/
theorem irq_word {a b : ℕ} (first : a < 2 ^ 10) :
    1 <<< 11 - 1 ||| a <<< 11 ||| b <<< 21 = 2047 + 2 ^ 11 * a + 2 ^ 21 * b := by
  have tag : (1 <<< 11 - 1 : ℕ) = 2047 := rfl
  rw [tag, or_shiftLeft (by omega) a, or_shiftLeft (by omega) b]

theorem le_trailingOnes {fuel k word : ℕ} (enough : k ≤ fuel) (low : word % 2 ^ k = 2 ^ k - 1) :
    k ≤ trailingOnes fuel word := by
  induction k generalizing fuel word with
  | zero => exact Nat.zero_le _
  | succ k ih =>
    obtain ⟨fuel, rfl⟩ := Nat.exists_eq_add_one.mpr (Nat.lt_of_lt_of_le (Nat.succ_pos k) enough)
    have positive := Nat.two_pow_pos k
    rw [Nat.pow_succ, Nat.mul_comm] at low
    have odd : word % 2 = 1 := by
      rw [← Nat.mod_mul_right_mod word 2 (2 ^ k), low]
      omega
    have half : word / 2 % 2 ^ k = 2 ^ k - 1 := by
      rw [← Nat.mod_mul_right_div_self, low]
      omega
    rw [trailingOnes, if_pos odd]
    exact Nat.succ_le_succ (ih (by omega) half)

/-- When a word of many low ones is read as interrupts. -/
theorem decode_irq_iff {word : ℕ} (low : word % 2 ^ 11 = 2 ^ 11 - 1) {rest : List ℕ} {one two : ℕ}
    {items : List Item} : decode (word :: rest) = some (.irqPair one two :: items) ↔
      trailingOnes 32 word = 11 ∧ field word 12 10 = one ∧ field word 22 10 = two ∧
        decode rest = some items := by
  have ones : 11 ≤ trailingOnes 32 word := le_trailingOnes (by decide) low
  have single : decode (word :: rest) =
      (wordItems word).bind fun items => (decode rest).map (items ++ ·) := by
    rw [decode.eq_def]
    exact if_neg (by omega)
  rw [single, Option.bind_eq_some_iff]
  simp only [Option.map_eq_some_iff]
  constructor
  · rintro ⟨first, read, later, behind, whole⟩
    rw [wordItems] at read
    generalize trailingOnes 32 word = k at *
    split at read <;> first | omega | (cases read; done) | (cases read; cases whole)
    exact ⟨rfl, rfl, rfl, behind⟩
  · rintro ⟨tag, rfl, rfl, behind⟩
    refine ⟨[.irqPair (field word 12 10) (field word 22 10)], ?_, _, behind, rfl⟩
    rw [wordItems, tag]
    rfl

end Words

section Syscalls

/-- The numbers of a group. -/
def groupItems (idx group : ℕ) : List Item :=
  ((List.range 24).filter (group.testBit ·)).map fun n => .syscall (24 * idx + n)

theorem decodes_group {group idx : ℕ} (small : group < 2 ^ 24) (below : idx < 8) :
    Decodes [1 <<< 4 - 1 ||| group <<< 5 ||| idx <<< 29] (groupItems idx group) := by
  have tag : (1 <<< 4 - 1 : ℕ) = 15 := rfl
  have word : 1 <<< 4 - 1 ||| group <<< 5 ||| idx <<< 29 = 15 + 2 ^ 5 * group + 2 ^ 29 * idx := by
    rw [tag, or_shiftLeft (by omega) group, or_shiftLeft (by omega) idx]
  rw [word]
  refine .one 4 (by decide) (by decide) (by omega) (by omega) fun ones => ?_
  have mask : field (15 + 2 ^ 5 * group + 2 ^ 29 * idx) 5 24 = group := by
    rw [field]
    omega
  have place : field (15 + 2 ^ 5 * group + 2 ^ 29 * idx) 29 3 = idx := by
    rw [field]
    omega
  have bits : bitAt group = (group.testBit ·) := by
    funext n
    rw [bitAt, Nat.testBit_eq_decide_div_mod_eq]
    rfl
  rw [wordItems, ones]
  simp only [mask, place, bits]
  rfl

/-- Each group is read where it is, and an empty one has no items. -/
theorem decodes_groups {groups : List ℕ} (small : ∀ group ∈ groups, group < 2 ^ 24) (start : ℕ)
    (few : start + groups.length ≤ 8) :
    Decodes ((groups.zipIdx start).filterMap fun (group, idx) =>
      if group = 0 then none else some (1 <<< 4 - 1 ||| group <<< 5 ||| idx <<< 29))
        ((groups.zipIdx start).flatMap fun (group, idx) => groupItems idx group) := by
  induction groups generalizing start with
  | nil => exact .nil
  | cons group rest ih =>
    rw [List.forall_mem_cons] at small
    rw [List.length_cons] at few
    have later := ih small.2 (start + 1) (by omega)
    rw [List.zipIdx_cons, List.filterMap_cons, List.flatMap_cons]
    rcases Nat.eq_zero_or_pos group with rfl | full
    · have none_ : groupItems start 0 = [] := by simp [groupItems]
      simp only [if_true, none_, List.nil_append]
      exact later
    · simp only [if_neg full.ne']
      exact (decodes_group small.1 (by omega)).append later

/-- The groups of the syscalls of a list. -/
structure Collected (groups numbers : List ℕ) : Prop where
  length : groups.length = 8
  bits : ∀ idx < 8, ∀ j, (groups.getD idx 0).testBit j = true ↔ j < 24 ∧ 24 * idx + j ∈ numbers

theorem collected_nil : Collected (List.replicate 8 0) [] where
  length := List.length_replicate
  bits idx below j := by
    rw [List.getD_eq_getElem?_getD, List.getElem?_replicate_of_lt below]
    simp

theorem Collected.add {groups numbers : List ℕ} (collected : Collected groups numbers) (val : ℕ) :
    Collected (addSyscall groups val) (numbers ++ [val]) where
  length := (List.length_modify ..).trans collected.length
  bits idx below j := by
    have length := collected.length
    have before := collected.bits idx below j
    have place : 24 * idx + j = val ∧ j < 24 ↔ val / 24 = idx ∧ val % 24 = j := by omega
    rw [List.mem_append, List.mem_singleton, and_or_left, ← before, and_comm (a := j < 24), place]
    rw [addSyscall, List.getD_eq_getElem?_getD, List.getElem?_modify, List.getD_eq_getElem?_getD,
      List.getElem?_eq_getElem (by omega)]
    simp only [Option.map_eq_map, Option.map_some, Option.getD_some]
    split_ifs with here
    · simp only [here, Nat.testBit_or, Nat.one_shiftLeft, Nat.testBit_two_pow, Bool.or_eq_true,
        decide_eq_true_eq, true_and]
    · simp only [here, false_and, or_false]

theorem Collected.small {groups numbers : List ℕ} (collected : Collected groups numbers) :
    ∀ group ∈ groups, group < 2 ^ 24 := by
  intro group member
  obtain ⟨idx, bound, rfl⟩ := List.getElem_of_mem member
  have length := collected.length
  apply Nat.lt_pow_two_of_testBit
  intro j large
  have bit := collected.bits idx (by omega) j
  rw [List.getD_eq_getElem?_getD, List.getElem?_eq_getElem bound, Option.getD_some] at bit
  rw [Bool.eq_false_iff]
  intro set_
  have := (bit.mp set_).1
  omega

theorem range_mul (k n : ℕ) :
    List.range (k * n) = (List.range n).flatMap fun i => (List.range k).map (k * i + ·) := by
  induction n with
  | zero => rfl
  | succ n ih =>
    rw [Nat.mul_succ, List.range_add, ih, List.range_succ, List.flatMap_append,
      List.flatMap_singleton]

/-- The numbers in order, each once. -/
def syscallItems (numbers : List ℕ) : List Item :=
  ((List.range 192).filter (· ∈ numbers)).map .syscall

theorem Collected.items {groups numbers : List ℕ} (collected : Collected groups numbers) :
    (groups.zipIdx.flatMap fun (group, idx) => groupItems idx group) = syscallItems numbers := by
  have length := collected.length
  have indexed : groups.zipIdx = (List.range 8).map fun idx => (groups.getD idx 0, idx) := by
    apply List.ext_getElem (by simp [length])
    intro i first second
    simp only [List.length_zipIdx] at first
    simp [List.getD_eq_getElem?_getD, List.getElem?_eq_getElem first]
  have split : List.range 192 = (List.range 8).flatMap fun idx =>
    (List.range 24).map (24 * idx + ·) := range_mul 24 8
  rw [indexed, List.flatMap_map, syscallItems, split, List.filter_flatMap, List.map_flatMap]
  rw [List.flatMap_def, List.flatMap_def]
  apply congrArg List.flatten
  apply List.map_congr_left
  intro idx member
  have below := List.mem_range.mp member
  show groupItems idx (groups.getD idx 0) = _
  rw [groupItems, List.filter_map, List.map_map]
  congr 1
  apply List.filter_congr
  intro j inside
  have bit := collected.bits idx below j
  simp only [List.mem_range.mp inside, true_and] at bit
  rw [Bool.eq_iff_iff, bit]
  simp

end Syscalls

end Hakkun.Tools.BuildNpdm
