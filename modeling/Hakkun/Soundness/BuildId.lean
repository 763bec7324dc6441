import Hakkun.Machine.Core.Fuel
import Hakkun.Model.Ro.BuildId

/-! # The search for a build id

The search compares the bytes at the end of the section first, which are not in it. Otherwise it
finds the last place in two pages where the name of a GNU note is; that is the name of a build id
note, or bytes of something else.
-/

namespace Hakkun.Ro

open Machine.Core

variable {memory : Memory} {rodata : Range} {last search : Ptr}

/-- The byte of a section at an offset. -/
def Range.address (range : Range) (offset : ℕ) : Ptr := range.mStart + BitVec.ofNat 64 offset

/-- An integer of four bytes in memory. -/
def wordAt (memory : Memory) (address : Ptr) : ℕ :=
  (bytesAt memory address 4).foldr (fun byte rest => byte.toNat + 256 * rest) 0

/-- A GNU build id note in the last two pages of a section: the length of the name, the length of
the descriptor, the type, the name, the descriptor. -/
structure NoteAt (memory : Memory) (rodata : Range) (offset : ℕ) : Prop where
  namesz : wordAt memory (rodata.address offset) = 4
  type : wordAt memory (rodata.address (offset + 8)) = 3
  name : bytesAt memory (rodata.address (offset + 12)) 4 = sGnuHashMagic
  inside : offset + 16 + wordAt memory (rodata.address (offset + 4)) ≤ rodata.mSize.toNat
  lastPages : rodata.mSize.toNat ≤ offset + 0x2000

/-- The search reads bytes of the section alone. -/
def ReadsInside (memory : Memory) (rodata : Range) : Prop :=
  ∀ fuel, ∀ address ∈ (findBuildId memory rodata fuel).1,
    ∃ offset < rodata.mSize.toNat, address = rodata.address offset

/-- The search finds a note when there is one, and fails otherwise. -/
structure Finds (memory : Memory) (rodata : Range) : Prop where
  found : (∃ offset, NoteAt memory rodata offset) → ∃ offset, NoteAt memory rodata offset ∧
    offset + 16 + 16 ≤ rodata.mSize.toNat ∧ Ends (fun fuel => (findBuildId memory rodata fuel).2)
      (some (.ok (rodata.address (offset + 16))))
  missing : (∀ offset, ¬ NoteAt memory rodata offset) →
    Ends (fun fuel => (findBuildId memory rodata fuel).2) (some (.error "GnuHashMissing"))

/-- The name of a GNU note is so many bytes before the end. -/
def Magic (memory : Memory) (rodata : Range) (distance : ℕ) : Prop :=
  bytesAt memory (rodata.stop - BitVec.ofNat 64 distance) 4 = sGnuHashMagic

/-- The nearest name to the end within two pages belongs to a build id note with sixteen bytes. A
section that ends within the first two pages of memory is not searched, so that it has no note; one
that ends right after them has a name. -/
structure LastIsNote (memory : Memory) (rodata : Range) : Prop where
  low : rodata.stop.toNat < 0x2000 → ∀ offset, ¬ NoteAt memory rodata offset
  last : 0x2000 ≤ rodata.stop.toNat → ∀ distance ≤ 0x2000, Magic memory rodata distance →
    (∀ nearer < distance, ¬ Magic memory rodata nearer) →
      ∃ offset, NoteAt memory rodata offset ∧ offset + 12 + distance = rodata.mSize.toNat ∧
        offset + 16 + 16 ≤ rodata.mSize.toNat
  bounded : rodata.stop.toNat = 0x2000 → ∃ distance ≤ 0x2000, Magic memory rodata distance

/-! ## Addresses -/

theorem Range.address_add (range : Range) (offset amount : ℕ) :
    range.address (offset + amount) = range.address offset + BitVec.ofNat 64 amount := by
  rw [address, address, BitVec.ofNat_add, BitVec.add_assoc]

/-- An offset and the distance from the end. -/
theorem Range.address_eq_sub {range : Range} {offset distance : ℕ}
    (total : offset + distance = range.mSize.toNat) :
    range.address offset = range.stop - BitVec.ofNat 64 distance := by
  have size : range.mSize = BitVec.ofNat 64 offset + BitVec.ofNat 64 distance := by
    rw [← BitVec.ofNat_add, total, BitVec.ofNat_toNat, BitVec.setWidth_eq]
  rw [stop, address, size, ← BitVec.add_assoc, BitVec.add_sub_cancel]

theorem Range.stop_ne_address {range : Range} {offset : ℕ} (inside : offset < range.mSize.toNat) :
    range.stop ≠ range.address offset := by
  intro same
  have size := congrArg BitVec.toNat (BitVec.add_right_inj range.mStart |>.mp same)
  rw [BitVec.toNat_ofNat] at size
  omega

theorem NoteAt.magic {offset : ℕ} (note : NoteAt memory rodata offset) :
    ∃ distance ≤ 0x2000, offset + 12 + distance = rodata.mSize.toNat ∧
      Magic memory rodata distance := by
  have inside := note.inside
  have lastPages := note.lastPages
  obtain ⟨distance, total⟩ : ∃ distance, offset + 12 + distance = rodata.mSize.toNat :=
    ⟨rodata.mSize.toNat - (offset + 12), by omega⟩
  refine ⟨distance, by omega, total, ?_⟩
  rw [Magic, ← Range.address_eq_sub total]
  exact note.name

/-! ## The loop -/

theorem searchLoop_skip {fuel : ℕ} (inside : last ≤ search)
    (other : bytesAt memory search 4 ≠ sGnuHashMagic) :
    (searchLoop memory last (fuel + 1) search).2 =
      (searchLoop memory last fuel (search - 1)).2 := by
  rw [searchLoop, if_pos inside]
  dsimp only
  rw [show sGnuHashMagic.length = 4 from rfl, if_neg other]

/-- The loop comes to a distance from where it begins, if it finds no name before. -/
theorem ends_skip {result : Option (Except String Ptr)} (distance : ℕ)
    (passed : ∀ nearer < distance, last ≤ search - BitVec.ofNat 64 nearer ∧
      bytesAt memory (search - BitVec.ofNat 64 nearer) 4 ≠ sGnuHashMagic)
    (ends : Ends (fun fuel =>
      (searchLoop memory last fuel (search - BitVec.ofNat 64 distance)).2) result) :
    Ends (fun fuel => (searchLoop memory last fuel search).2) result := by
  induction distance with
  | zero => rwa [BitVec.sub_zero] at ends
  | succ distance ih =>
    obtain ⟨inside, other⟩ := passed distance (Nat.lt_succ_self distance)
    refine ih (fun nearer before => passed nearer (Nat.lt_succ_of_lt before)) (.of_succ ?_)
    refine Ends.congr (fun fuel => searchLoop_skip inside other) ?_
    rwa [BitVec.ofNat_add, ← BitVec.sub_sub] at ends

theorem last_toNat (high : 0x2000 ≤ rodata.stop.toNat) :
    (rodata.stop - cPageSize * 2).toNat = rodata.stop.toNat - 0x2000 :=
  BitVec.toNat_sub_of_le (BitVec.le_def.mpr high)

theorem last_le {distance : ℕ} (high : 0x2000 ≤ rodata.stop.toNat) (near : distance ≤ 0x2000) :
    rodata.stop - cPageSize * 2 ≤ rodata.stop - BitVec.ofNat 64 distance := by
  have small : (BitVec.ofNat 64 distance).toNat = distance := by
    rw [BitVec.toNat_ofNat]
    omega
  rw [BitVec.le_def, last_toNat high,
    BitVec.toNat_sub_of_le (BitVec.le_def.mpr (by rw [small]; omega)), small]
  omega

/-- The nearest name is found. -/
theorem ends_found {distance : ℕ} (high : 0x2000 ≤ rodata.stop.toNat) (near : distance ≤ 0x2000)
    (magic : Magic memory rodata distance)
    (nearest : ∀ nearer < distance, ¬ Magic memory rodata nearer) :
    Ends (fun fuel => (findBuildId memory rodata fuel).2)
      (some (.ok (rodata.stop - BitVec.ofNat 64 distance + BitVec.ofNat 64 4))) := by
  refine ends_skip distance (fun nearer before => ?_) (.of_succ (.of_forall fun fuel => ?_))
  · exact ⟨last_le high (by omega), nearest nearer before⟩
  · rw [searchLoop, if_pos (last_le high near)]
    exact congrArg Prod.snd (if_pos magic)

theorem ends_missing (high : 0x2000 < rodata.stop.toNat)
    (absent : ∀ distance ≤ 0x2000, ¬ Magic memory rodata distance) :
    Ends (fun fuel => (findBuildId memory rodata fuel).2) (some (.error "GnuHashMissing")) := by
  refine ends_skip 0x2001 (fun nearer before => ?_) (.of_succ (.of_forall fun fuel => ?_))
  · exact ⟨last_le high.le (by omega), absent nearer (by omega)⟩
  · have one : (BitVec.ofNat 64 0x2001).toNat = 0x2001 := rfl
    have outside : ¬ rodata.stop - BitVec.ofNat 64 0x2001 ≥ rodata.stop - cPageSize * 2 := by
      rw [ge_iff_le, BitVec.le_def, last_toNat high.le,
        BitVec.toNat_sub_of_le (BitVec.le_def.mpr (one ▸ high)), one]
      omega
    rw [searchLoop, if_neg outside]

/-- Below the first two pages the loop does not begin. -/
theorem findBuildId_low (low : rodata.stop.toNat < 0x2000) (fuel : ℕ) :
    findBuildId memory rodata (fuel + 1) = ([], some (.error "GnuHashMissing")) := by
  have wrapped : (rodata.stop - cPageSize * 2).toNat = 2 ^ 64 - 0x2000 + rodata.stop.toNat := by
    have two : (cPageSize * 2).toNat = 0x2000 := rfl
    rw [BitVec.toNat_sub, two]
    omega
  refine if_neg ?_
  rw [ge_iff_le, BitVec.le_def, wrapped]
  omega

/-- A loop down to address 0 does not stop by itself. -/
theorem searchLoop_zero (fuel : ℕ) (search : Ptr) (error : String) :
    (searchLoop memory 0 fuel search).2 ≠ some (.error error) := by
  induction fuel generalizing search with
  | zero => nofun
  | succ fuel ih =>
    rw [searchLoop, if_pos (BitVec.le_def.mpr (Nat.zero_le _))]
    dsimp only
    split
    · nofun
    · exact ih (search - 1)

/-! ## The search -/

theorem readsInside_iff : ReadsInside memory rodata ↔ rodata.stop.toNat < 0x2000 := by
  constructor
  · intro inside
    by_contra high
    have first : rodata.stop ∈ addresses rodata.stop 4 :=
      List.mem_map.mpr ⟨0, List.mem_range.mpr (by decide), BitVec.add_zero _⟩
    have here : rodata.stop ∈ (findBuildId memory rodata 1).1 := by
      have run : rodata.stop - cPageSize * 2 ≤ rodata.stop - BitVec.ofNat 64 0 :=
        last_le (Nat.not_lt.mp high) (by decide)
      rw [BitVec.sub_zero] at run
      rw [findBuildId, searchLoop, if_pos run]
      dsimp only
      split
      · exact first
      · exact List.mem_append_left _ first
    obtain ⟨offset, bound, same⟩ := inside 1 _ here
    exact Range.stop_ne_address bound same
  · intro low fuel address member
    cases fuel with
    | zero => cases member
    | succ fuel =>
      rw [findBuildId_low low] at member
      cases member

/-- The nearest name, if there is one within two pages. -/
theorem exists_nearest {distance : ℕ} (magic : Magic memory rodata distance) :
    ∃ nearest ≤ distance, Magic memory rodata nearest ∧
      ∀ nearer < nearest, ¬ Magic memory rodata nearer := by
  classical
  have exists_magic : ∃ distance, Magic memory rodata distance := ⟨distance, magic⟩
  exact ⟨Nat.find exists_magic, Nat.find_min' exists_magic magic, Nat.find_spec exists_magic,
    fun nearer before => Nat.find_min exists_magic before⟩

/-- A note whose name is at a distance from the end. -/
theorem NoteAt.address_eq {offset distance : ℕ}
    (total : offset + 12 + distance = rodata.mSize.toNat) :
    rodata.stop - BitVec.ofNat 64 distance + BitVec.ofNat 64 4 = rodata.address (offset + 16) := by
  rw [← Range.address_eq_sub total, ← Range.address_add]

theorem lastIsNote_of_finds (finds : Finds memory rodata) : LastIsNote memory rodata := by
  have failing (low : rodata.stop.toNat < 0x2000) :
      Ends (fun fuel => (findBuildId memory rodata fuel).2) (some (.error "GnuHashMissing")) :=
    .of_succ (.of_forall fun fuel => congrArg Prod.snd (findBuildId_low low fuel))
  constructor
  · intro low offset note
    obtain ⟨_, _, _, ends⟩ := finds.found ⟨offset, note⟩
    cases ends.unique (failing low)
  · intro high distance near magic nearest
    have ends := ends_found high near magic nearest
    by_cases present : ∃ offset, NoteAt memory rodata offset
    · obtain ⟨offset, note, sixteen, done⟩ := finds.found present
      obtain ⟨place, _, total, _⟩ := note.magic
      have same := Except.ok.inj (Option.some.inj (done.unique ends))
      rw [← NoteAt.address_eq total, BitVec.add_left_inj, BitVec.sub_right_inj] at same
      have equal := congrArg BitVec.toNat same
      rw [BitVec.toNat_ofNat, BitVec.toNat_ofNat] at equal
      obtain rfl : place = distance := by omega
      exact ⟨offset, note, total, sixteen⟩
    · cases ends.unique (finds.missing (not_exists.mp present))
  · intro exact_end
    by_contra absent
    have nothing (offset : ℕ) : ¬ NoteAt memory rodata offset := by
      intro note
      obtain ⟨distance, near, _, magic⟩ := note.magic
      exact absent ⟨distance, near, magic⟩
    obtain ⟨fuel, returned⟩ : ∃ fuel, (searchLoop memory (rodata.stop - cPageSize * 2) fuel
        rodata.stop).2 = some (.error "GnuHashMissing") := (finds.missing nothing).exists
    have zero : rodata.stop - cPageSize * 2 = 0 := by
      apply BitVec.eq_of_toNat_eq
      rw [last_toNat exact_end.ge, exact_end]
      rfl
    rw [zero] at returned
    exact searchLoop_zero _ _ _ returned

theorem finds_of_lastIsNote (lastIsNote : LastIsNote memory rodata) : Finds memory rodata := by
  obtain ⟨low, last, bounded⟩ := lastIsNote
  constructor
  · rintro ⟨offset, note⟩
    obtain ⟨distance, near, total, magic⟩ := note.magic
    have high : 0x2000 ≤ rodata.stop.toNat := by
      by_contra below
      exact low (Nat.not_le.mp below) offset note
    obtain ⟨nearest, closer, there, none_before⟩ := exists_nearest magic
    obtain ⟨other, found, place, sixteen⟩ := last high nearest (by omega) there none_before
    refine ⟨other, found, sixteen, ?_⟩
    rw [← NoteAt.address_eq place]
    exact ends_found high (by omega) there none_before
  · intro nothing
    have absent (high : 0x2000 ≤ rodata.stop.toNat) (distance : ℕ) (near : distance ≤ 0x2000) :
        ¬ Magic memory rodata distance := by
      intro magic
      obtain ⟨nearest, closer, there, none_before⟩ := exists_nearest magic
      obtain ⟨offset, note, _⟩ := last high nearest (by omega) there none_before
      exact nothing offset note
    rcases Nat.lt_trichotomy rodata.stop.toNat 0x2000 with below | exact_end | above
    · exact .of_succ (.of_forall fun fuel => congrArg Prod.snd (findBuildId_low below fuel))
    · obtain ⟨distance, near, magic⟩ := bounded exact_end
      exact absurd magic (absent exact_end.ge distance near)
    · exact ends_missing above (absent above.le)

/-- The search reads the section alone and finds its note under no other condition than that the
section ends below the first two pages and has no note; what it finds is right exactly when the
nearest name is that of a note. -/
theorem findBuildId_iff (memory : Memory) (rodata : Range) :
    (ReadsInside memory rodata ∧ Finds memory rodata ↔
        rodata.stop.toNat < 0x2000 ∧ ∀ offset, ¬ NoteAt memory rodata offset) ∧
      (Finds memory rodata ↔ LastIsNote memory rodata) := by
  refine ⟨?_, lastIsNote_of_finds, finds_of_lastIsNote⟩
  rw [readsInside_iff]
  refine and_congr_right fun low => ⟨fun finds => (lastIsNote_of_finds finds).low low, ?_⟩
  intro nothing
  apply finds_of_lastIsNote
  constructor
  · exact fun _ => nothing
  · exact fun high => absurd low (Nat.not_lt.mpr high)
  · exact fun exact_end => absurd exact_end low.ne

/-- Behind a section without a note is what looks like the name of one. -/
def nameBehind : Memory := fun address => sGnuHashMagic.getD (address - 0x13000).toNat 0

theorem not_findBuildId :
    ¬ ReadsInside nameBehind ⟨0x10000, 0x3000⟩ ∧ ¬ Finds nameBehind ⟨0x10000, 0x3000⟩ := by
  constructor
  · rw [readsInside_iff]
    decide
  · intro finds
    have magic : Magic nameBehind ⟨0x10000, 0x3000⟩ 0 :=
      show bytesAt nameBehind _ 4 = sGnuHashMagic by decide
    obtain ⟨offset, note, place, _⟩ := (lastIsNote_of_finds finds).last (by decide) 0 (by decide)
      magic (fun _ before => absurd before (Nat.not_lt_zero _))
    have := note.inside
    omega

end Hakkun.Ro
