import Hakkun.Model.Ro.RoModule

/-! # Writes to the read-only code of a module

`writeRo` checks a write against both sections together and then copies all of it through the alias
of the section in which it begins, and the end of the checked range may wrap around. A write is
exact when it stays in one section, or when the aliases happen to follow each other as well.
-/

namespace Hakkun.Ro.RoModule

/-- An address lies in the alias of the section that contains an offset. -/
def InMapping (module : RoModule) (offset address : ℕ) : Prop :=
  if offset < module.textBytes then
    module.mTextRwMapping.mStart.toNat ≤ address ∧
      address < module.mTextRwMapping.mStart.toNat + module.textBytes
  else offset < module.textBytes + module.rodataBytes ∧
    module.mRodataRwMapping.mStart.toNat ≤ address ∧
      address < module.mRodataRwMapping.mStart.toNat + module.rodataBytes

/-- A successful write changes exactly its bytes and stays in the aliases; a failed one writes
nothing. -/
def WritesExactly (module : RoModule) (memory : Memory) (offset : U64) (source : ℕ → Byte)
    (writeSize : U64) : Prop :=
  match module.writeRo memory offset source writeSize with
  | (.error _, after) => after = memory
  | (.ok (), after) =>
    (∀ i < writeSize.toNat,
      module.InMapping (offset.toNat + i) (module.rwPtr offset + BitVec.ofNat 64 i).toNat) ∧
    (∀ k < module.textBytes + module.rodataBytes, module.byteAt after k =
      if offset.toNat ≤ k ∧ k < offset.toNat + writeSize.toNat then source (k - offset.toNat)
      else module.byteAt memory k) ∧
    ∀ at_ : Ptr, (∀ i < writeSize.toNat, at_ ≠ module.rwPtr offset + BitVec.ofNat 64 i) →
      after at_ = memory at_

/-- The write is refused, is empty, or stays in one section, or the aliases follow each other as
the sections do. -/
def Contained (module : RoModule) (offset writeSize : U64) : Prop :=
  module.inRange offset writeSize = false ∨ writeSize.toNat = 0 ∨
    offset.toNat + writeSize.toNat ≤ module.textBytes ∨
    (offset.toNat + writeSize.toNat ≤ module.textBytes + module.rodataBytes ∧
      (module.textBytes ≤ offset.toNat ∨
        module.mTextRwMapping.mStart.toNat + module.textBytes =
          module.mRodataRwMapping.mStart.toNat))

variable {module : RoModule}

theorem inRange_iff (mapped : module.Mapped) (offset writeSize : U64) :
    module.inRange offset writeSize = true ↔
      module.mTextRange.mStart.toNat + offset.toNat < 2 ^ 64 ∧
      (module.mTextRange.mStart.toNat + offset.toNat + writeSize.toNat) % 2 ^ 64 ≤
        module.mTextRange.mStart.toNat + module.textBytes + module.rodataBytes := by
  have bound := mapped.bound
  have := writeSize.isLt
  have := offset.isLt
  simp only [inRange, Range.stop, mapped.adjacent, Bool.and_eq_true, decide_eq_true_eq, ge_iff_le,
    BitVec.le_def, BitVec.toNat_add, textBytes, rodataBytes]
  omega

/-- Inside the module the alias of the first byte is the start of the copy. -/
theorem rwPtr_toNat (mapped : module.Mapped) {offset : U64}
    (inside : offset.toNat < module.textBytes + module.rodataBytes) :
    (module.rwPtr offset).toNat = module.rwAddress offset.toNat := by
  have bound := mapped.bound
  have textBound := mapped.textBound
  have rodataBound := mapped.rodataBound
  simp only [textBytes, rodataBytes] at inside
  have side : module.isText offset = true ↔ offset.toNat < module.textBytes := by
    simp only [isText, mapped.adjacent, Bool.not_eq_true', decide_eq_false_iff_not, ge_iff_le,
      BitVec.le_def, BitVec.toNat_add, textBytes]
    omega
  unfold rwPtr rwAddress
  by_cases text : offset.toNat < module.textBytes
  · rw [if_pos (side.mpr text), if_pos text, BitVec.toNat_add]
    simp only [textBytes] at text
    omega
  · rw [if_neg (side.not.mpr text), if_neg text, BitVec.toNat_sub, BitVec.toNat_add]
    simp only [textBytes] at text ⊢
    omega

/-- A contained write of at least one byte is contiguous in the aliases too. -/
theorem rwAddress_add {offset writeSize : U64} {i : ℕ}
    (accepted : module.inRange offset writeSize = true)
    (contained : module.Contained offset writeSize) (inside : i < writeSize.toNat) :
    offset.toNat + i < module.textBytes + module.rodataBytes ∧
      module.rwAddress (offset.toNat + i) = module.rwAddress offset.toNat + i := by
  rcases contained with refused | empty | text | ⟨within, rodata | follows⟩
  · rw [refused] at accepted
    cases accepted
  · omega
  · refine ⟨by omega, ?_⟩
    rw [rwAddress, rwAddress, if_pos (by omega), if_pos (by omega)]
    omega
  · refine ⟨by omega, ?_⟩
    rw [rwAddress, rwAddress, if_neg (by omega), if_neg (by omega)]
    omega
  · refine ⟨by omega, ?_⟩
    unfold rwAddress
    split_ifs <;> omega

theorem rwAddress_inMapping {k : ℕ} (inside : k < module.textBytes + module.rodataBytes) :
    module.InMapping k (module.rwAddress k) := by
  unfold InMapping rwAddress
  split_ifs <;> omega

theorem rwAddress_lt (mapped : module.Mapped) {k : ℕ}
    (inside : k < module.textBytes + module.rodataBytes) : module.rwAddress k < 2 ^ 64 := by
  have textBound : module.mTextRwMapping.mStart.toNat + module.textBytes < 2 ^ 64 :=
    mapped.textBound
  have rodataBound : module.mRodataRwMapping.mStart.toNat + module.rodataBytes < 2 ^ 64 :=
    mapped.rodataBound
  unfold rwAddress
  split_ifs <;> omega

/-- The aliases of the two sections do not overlap. -/
theorem aliases_apart (mapped : module.Mapped) :
    module.mTextRwMapping.mStart.toNat + module.textBytes ≤ module.mRodataRwMapping.mStart.toNat ∨
      module.mRodataRwMapping.mStart.toNat + module.rodataBytes ≤
        module.mTextRwMapping.mStart.toNat :=
  mapped.apart

/-- Different bytes of a module have different addresses in the aliases. -/
theorem rwAddress_injective (mapped : module.Mapped) {j k : ℕ}
    (first : j < module.textBytes + module.rodataBytes)
    (second : k < module.textBytes + module.rodataBytes)
    (same : module.rwAddress j = module.rwAddress k) : j = k := by
  have apart := aliases_apart mapped
  unfold rwAddress at same
  split_ifs at same <;> omega

/-- The address of the `i`-th byte of a contained write. -/
theorem written_toNat (mapped : module.Mapped) {offset writeSize : U64} {i : ℕ}
    (accepted : module.inRange offset writeSize = true)
    (contained : module.Contained offset writeSize) (inside : i < writeSize.toNat) :
    (module.rwPtr offset + BitVec.ofNat 64 i).toNat = module.rwAddress (offset.toNat + i) := by
  obtain ⟨first, -⟩ := rwAddress_add (i := 0) accepted contained (by omega)
  obtain ⟨here, next⟩ := rwAddress_add accepted contained inside
  have bound := rwAddress_lt mapped here
  have := writeSize.isLt
  rw [BitVec.toNat_add, rwPtr_toNat mapped (by omega), BitVec.toNat_ofNat, next,
    Nat.mod_eq_of_lt (show i < 2 ^ 64 by omega), Nat.mod_eq_of_lt (by omega)]

theorem memcpy_at (memory : Memory) (dest at_ : Ptr) (source : ℕ → Byte) (size : U64) :
    memcpy memory dest source size at_ =
      if (at_ - dest).toNat < size.toNat then source (at_ - dest).toNat else memory at_ := rfl

/-- The copy reaches an address exactly as one of its bytes. -/
theorem sub_toNat_eq {at_ dest : Ptr} {i : ℕ} (bound : i < 2 ^ 64) :
    (at_ - dest).toNat = i ↔ at_ = dest + BitVec.ofNat 64 i := by
  rw [← BitVec.toNat_inj, BitVec.toNat_sub, BitVec.toNat_add, BitVec.toNat_ofNat]
  have := at_.isLt
  have := dest.isLt
  omega

/-- What a contained write leaves at each offset of the module. -/
theorem byteAt_memcpy (mapped : module.Mapped) {offset writeSize : U64}
    (accepted : module.inRange offset writeSize = true)
    (contained : module.Contained offset writeSize) (memory : Memory) (source : ℕ → Byte) {k : ℕ}
    (inside : k < module.textBytes + module.rodataBytes) :
    module.byteAt (memcpy memory (module.rwPtr offset) source writeSize) k =
      if offset.toNat ≤ k ∧ k < offset.toNat + writeSize.toNat then source (k - offset.toNat)
      else module.byteAt memory k := by
  rw [byteAt, memcpy_at]
  by_cases written : offset.toNat ≤ k ∧ k < offset.toNat + writeSize.toNat
  · rw [if_pos written]
    have reached : (BitVec.ofNat 64 (module.rwAddress k) - module.rwPtr offset).toNat =
        k - offset.toNat := by
      rw [sub_toNat_eq (by omega), ← BitVec.toNat_inj,
        written_toNat mapped accepted contained (by omega), BitVec.toNat_ofNat,
        Nat.mod_eq_of_lt (rwAddress_lt mapped inside), Nat.add_sub_cancel' written.1]
    rw [reached, if_pos (by omega)]
  · rw [if_neg written, if_neg, byteAt]
    intro reached
    generalize index : (BitVec.ofNat 64 (module.rwAddress k) - module.rwPtr offset).toNat = i
      at reached
    have := writeSize.isLt
    rw [sub_toNat_eq (by omega), ← BitVec.toNat_inj,
      written_toNat mapped accepted contained reached, BitVec.toNat_ofNat,
      Nat.mod_eq_of_lt (rwAddress_lt mapped inside)] at index
    have := rwAddress_injective mapped inside
      (rwAddress_add accepted contained reached).1 index
    omega

/-- A write all of whose bytes go to the alias of their own section is contained. -/
theorem contained_of_inMapping (mapped : module.Mapped) {offset writeSize : U64}
    (mappings : ∀ i < writeSize.toNat, module.InMapping (offset.toNat + i)
      (module.rwPtr offset + BitVec.ofNat 64 i).toNat) :
    module.Contained offset writeSize := by
  rcases Nat.eq_zero_or_pos writeSize.toNat with empty | positive
  · exact .inr (.inl empty)
  have apart := aliases_apart mapped
  have last := mappings (writeSize.toNat - 1) (by omega)
  have within : offset.toNat + writeSize.toNat ≤ module.textBytes + module.rodataBytes := by
    unfold InMapping at last
    split_ifs at last <;> omega
  rcases le_or_gt (offset.toNat + writeSize.toNat) module.textBytes with text | beyond
  · exact .inr (.inr (.inl text))
  refine .inr (.inr (.inr ⟨within, ?_⟩))
  rcases le_or_gt module.textBytes offset.toNat with rodata | before
  · exact .inl rodata
  -- the write crosses the border: its first rodata byte is written right behind the text alias
  have border := mappings (module.textBytes - offset.toNat) (by omega)
  have start : (module.rwPtr offset).toNat = module.rwAddress offset.toNat :=
    rwPtr_toNat mapped (by omega)
  rw [rwAddress, if_pos before] at start
  have textBound : module.mTextRwMapping.mStart.toNat + module.textBytes < 2 ^ 64 :=
    mapped.textBound
  rw [InMapping, if_neg (by omega), BitVec.toNat_add, start, BitVec.toNat_ofNat] at border
  refine .inr ?_
  omega

/-- `writeRo` is exact precisely on contained writes. -/
theorem writesExactly_iff_contained (mapped : module.Mapped) (memory : Memory)
    (offset : U64) (source : ℕ → Byte) (writeSize : U64) :
    module.WritesExactly memory offset source writeSize ↔
      module.Contained offset writeSize := by
  unfold WritesExactly writeRo
  rw [if_neg mapped.textMapped, if_neg mapped.rodataMapped]
  cases accepted : module.inRange offset writeSize with
  | false =>
    simp only [Bool.not_false, if_true, true_iff]
    exact .inl accepted
  | true =>
    simp only [Bool.not_true, Bool.false_eq_true, if_false]
    constructor
    · rintro ⟨mappings, -, -⟩
      exact contained_of_inMapping mapped mappings
    · intro contained
      refine ⟨?_, ?_, ?_⟩
      · intro i inside
        rw [written_toNat mapped accepted contained inside]
        exact rwAddress_inMapping (rwAddress_add accepted contained inside).1
      · intro k inside
        exact byteAt_memcpy mapped accepted contained memory source inside
      · intro at_ outside
        rw [memcpy_at, if_neg]
        intro reached
        have := writeSize.isLt
        exact outside _ reached ((sub_toNat_eq (by omega)).mp rfl)

/-- A module of one page of text and one page of rodata. -/
def twoPages : RoModule where
  mTextRange := ⟨0x1000, 0x1000⟩
  mRodataRange := ⟨0x2000, 0x1000⟩
  mTextRwMapping := ⟨0x10000, 0x1000⟩
  mRodataRwMapping := ⟨0x20000, 0x1000⟩

theorem mapped_twoPages : twoPages.Mapped := by
  constructor <;> decide

theorem writesExactly_twoPages :
    twoPages.WritesExactly (fun _ => 0) 0xfff (fun _ => 1) 1 :=
  (writesExactly_iff_contained mapped_twoPages _ 0xfff _ 1).mpr (.inr (.inr (.inl (by decide))))

/-- Two bytes across the border: the second one is written behind the text alias. -/
theorem border_not_writesExactly :
    twoPages.Mapped ∧ ¬ twoPages.WritesExactly (fun _ => 0) 0xfff (fun _ => 1) 2 := by
  refine ⟨mapped_twoPages, ?_⟩
  have accepted : (twoPages.writeRo (fun _ => 0) 0xfff (fun _ => 1) 2).1 = .ok () := by decide
  unfold WritesExactly
  split
  next error after outcome =>
    rw [outcome] at accepted
    cases accepted
  next after outcome =>
    rintro ⟨mappings, -, -⟩
    have second := mappings 1 (by decide)
    revert second
    unfold InMapping
    decide

end Hakkun.Ro.RoModule
