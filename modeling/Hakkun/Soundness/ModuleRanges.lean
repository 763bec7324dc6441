import Hakkun.Model.Ro.RoUtil

/-! # Module ranges

The range of a module starts with its text and is as long as its three sections together, which is
right only where the sections follow each other. A search by address takes the end of a range to be
inside, so that the first address of a module is found in the one before it.
-/

namespace Hakkun.Ro

/-- An address of a range. -/
def Range.Contains (range : Range) (address : Ptr) : Prop :=
  range.mStart.toNat ≤ address.toNat ∧ address.toNat < range.mStart.toNat + range.mSize.toNat

instance (range : Range) (address : Ptr) : Decidable (range.Contains address) :=
  inferInstanceAs (Decidable (_ ∧ _))

/-! ## Section layout -/

/-- Regions tile the address space: an address is in its region, and so are all others of it. -/
structure Tiles (queryMemory : QueryMemory) : Prop where
  inside : ∀ address info, queryMemory address = some info → info.range.Contains address
  bounded : ∀ address info, queryMemory address = some info →
    info.base_address.toNat + info.size.toNat ≤ 2 ^ 64
  same : ∀ address info other, queryMemory address = some info → info.range.Contains other →
    queryMemory other = some info

/-- The sections ascend without overlap, and the range of the module has all their addresses. -/
structure Laid (module : LoadedModule) : Prop where
  rodata : module.mTextRange.mStart.toNat + module.mTextRange.mSize.toNat ≤
    module.mRodataRange.mStart.toNat
  data : module.mRodataRange.mStart.toNat + module.mRodataRange.mSize.toNat ≤
    module.mDataRange.mStart.toNat
  covers : ∀ section_ ∈ [module.mTextRange, module.mRodataRange, module.mDataRange], ∀ address,
    section_.Contains address → module.range.Contains address

/-- The three regions from an address on: the last one can be written, the others do not end where
the address space does, and they do not take up all of it. -/
def Consecutive (queryMemory : QueryMemory) (m_Base : Ptr) : Prop :=
  ∃ text rodata data, queryMemory m_Base = some text ∧ queryMemory text.stop = some rodata ∧
    queryMemory rodata.stop = some data ∧ data.permission = .ReadWrite ∧
    text.base_address.toNat + text.size.toNat < 2 ^ 64 ∧
    rodata.base_address.toNat + rodata.size.toNat < 2 ^ 64 ∧
    text.size.toNat + rodata.size.toNat + data.size.toNat < 2 ^ 64

variable {queryMemory : QueryMemory} {fuel : ℕ} {m_Base : Ptr} {module found : LoadedModule}
  {info next data : MemoryInfo}

theorem tryQuery_eq_ok {address : Ptr} :
    queryMemory.tryQuery address = .ok info ↔ queryMemory address = some info := by
  rw [QueryMemory.tryQuery]
  cases queryMemory address with
  | none => exact ⟨nofun, nofun⟩
  | some other => exact ⟨fun same => congrArg some (Except.ok.inj same), fun same => by cases same; rfl⟩

/-- What ends the loop, after at least one region. -/
theorem skipRead_of_read (read : info.permission = .Read)
    (skipped : skipRead queryMemory fuel info = .ok data) :
    ∃ next fuel', queryMemory info.stop = some next ∧ skipRead queryMemory fuel' next = .ok data := by
  cases fuel with
  | zero => cases skipped
  | succ fuel =>
    rw [skipRead, if_pos read] at skipped
    cases queried : queryMemory.tryQuery info.stop with
    | error => rw [queried] at skipped; cases skipped
    | ok next =>
      rw [queried] at skipped
      exact ⟨next, fuel, tryQuery_eq_ok.mp queried, skipped⟩

theorem skipRead_of_not_read (other : info.permission ≠ .Read)
    (skipped : skipRead queryMemory fuel info = .ok data) : data = info := by
  cases fuel with
  | zero => cases skipped
  | succ fuel =>
    rw [skipRead, if_neg other] at skipped
    exact (Except.ok.inj skipped).symm

theorem exists_query_of_skipRead {address : Ptr} (queried : queryMemory address = some info)
    (skipped : skipRead queryMemory fuel info = .ok data) :
    ∃ address, queryMemory address = some data := by
  induction fuel generalizing info address with
  | zero => cases skipped
  | succ fuel ih =>
    by_cases read : info.permission = .Read
    · rw [skipRead, if_pos read] at skipped
      cases queried : queryMemory.tryQuery info.stop with
      | error => rw [queried] at skipped; cases skipped
      | ok next =>
        rw [queried] at skipped
        exact ih (tryQuery_eq_ok.mp queried) skipped
    · exact ⟨address, skipRead_of_not_read read skipped ▸ queried⟩

/-- What `findRanges` accepts. -/
theorem findRanges_eq_ok (accepted : module.findRanges queryMemory fuel m_Base = .ok found) :
    ∃ text rodata data, queryMemory m_Base = some text ∧ text.base_address = m_Base ∧
      queryMemory text.stop = some rodata ∧ rodata.permission = .Read ∧
      skipRead queryMemory fuel rodata = .ok data ∧ data.permission = .ReadWrite ∧
      found.mTextRange = text.range ∧ found.mRodataRange = rodata.range ∧
      found.mDataRange = data.range := by
  rw [LoadedModule.findRanges] at accepted
  cases first : queryMemory.tryQuery m_Base with
  | error => rw [first] at accepted; cases accepted
  | ok text =>
    rw [first] at accepted
    change (if _ then _ else if _ then _ else _) = _ at accepted
    split at accepted
    · cases accepted
    case isFalse base =>
      split at accepted
      · cases accepted
      cases second : queryMemory.tryQuery text.stop with
      | error => rw [second] at accepted; cases accepted
      | ok rodata =>
        rw [second] at accepted
        change (if _ then _ else _) = _ at accepted
        split at accepted
        · cases accepted
        case isFalse read =>
          cases third : skipRead queryMemory fuel rodata with
          | error => rw [third] at accepted; cases accepted
          | ok data =>
            rw [third] at accepted
            change (if _ then _ else _) = _ at accepted
            split at accepted
            · cases accepted
            case isFalse write =>
              cases accepted
              exact ⟨text, rodata, data, tryQuery_eq_ok.mp first, not_not.mp base,
                tryQuery_eq_ok.mp second, not_not.mp read, third, not_not.mp write, rfl, rfl, rfl⟩

/-- The region that is found behind another one starts there. -/
theorem Tiles.next_base (tiles : Tiles queryMemory) {address : Ptr}
    (here : queryMemory address = some info) (inside : info.base_address.toNat + info.size.toNat < 2 ^ 64)
    (there : queryMemory info.stop = some next) :
    next.base_address.toNat = info.base_address.toNat + info.size.toNat := by
  have stop : info.stop.toNat = info.base_address.toNat + info.size.toNat := by
    rw [MemoryInfo.stop, BitVec.toNat_add, Nat.mod_eq_of_lt inside]
  have start : next.base_address.toNat ≤ info.stop.toNat ∧ _ := tiles.inside _ _ there
  have nonempty : info.base_address.toNat ≤ address.toNat ∧
    address.toNat < info.base_address.toNat + info.size.toNat := tiles.inside _ _ here
  by_contra other
  -- otherwise the last address of the first region is in both
  have last : (BitVec.ofNat 64 (info.stop.toNat - 1)).toNat = info.stop.toNat - 1 := by
    rw [BitVec.toNat_ofNat, Nat.mod_eq_of_lt (by omega)]
  have first : info.range.Contains (BitVec.ofNat 64 (info.stop.toNat - 1)) := by
    rw [Range.Contains, last]
    change info.base_address.toNat ≤ _ ∧ _ < info.base_address.toNat + info.size.toNat
    omega
  have second : next.range.Contains (BitVec.ofNat 64 (info.stop.toNat - 1)) := by
    have upper : info.stop.toNat < next.base_address.toNat + next.size.toNat := start.2
    rw [Range.Contains, last]
    change next.base_address.toNat ≤ _ ∧ _ < next.base_address.toNat + next.size.toNat
    omega
  have both := (tiles.same _ _ _ here first).symm.trans (tiles.same _ _ _ there second)
  obtain rfl := Option.some.inj both
  have upper : info.stop.toNat < info.base_address.toNat + info.size.toNat := start.2
  omega

/-- The last address of a section that is covered. -/
theorem Range.stop_le_of_covers {inner outer : Range} (nonempty : 0 < inner.mSize.toNat)
    (bounded : inner.mStart.toNat + inner.mSize.toNat ≤ 2 ^ 64)
    (covers : ∀ address, inner.Contains address → outer.Contains address) :
    inner.mStart.toNat + inner.mSize.toNat ≤ outer.mStart.toNat + outer.mSize.toNat := by
  have last : (BitVec.ofNat 64 (inner.mStart.toNat + inner.mSize.toNat - 1)).toNat =
      inner.mStart.toNat + inner.mSize.toNat - 1 := by
    rw [BitVec.toNat_ofNat, Nat.mod_eq_of_lt (by omega)]
  have inside := covers (BitVec.ofNat 64 (inner.mStart.toNat + inner.mSize.toNat - 1))
    (by rw [Range.Contains, last]; omega)
  rw [Range.Contains, last] at inside
  omega

theorem Tiles.nonempty (tiles : Tiles queryMemory) {address : Ptr}
    (here : queryMemory address = some info) : 0 < info.size.toNat := by
  have inside : info.base_address.toNat ≤ address.toNat ∧
    address.toNat < info.base_address.toNat + info.size.toNat := tiles.inside _ _ here
  omega

/-- The ranges that are found are laid out as they should be exactly if the three regions follow each
other. -/
theorem laid_iff_consecutive (tiles : Tiles queryMemory)
    (accepted : module.findRanges queryMemory fuel m_Base = .ok found) :
    Laid found ↔ Consecutive queryMemory m_Base := by
  obtain ⟨text, rodata, data, first, base, second, read, skipped, write, textRange, rodataRange,
    dataRange⟩ := findRanges_eq_ok accepted
  obtain ⟨_, queried⟩ := exists_query_of_skipRead second skipped
  have total : found.range.mSize.toNat =
      (text.size.toNat + rodata.size.toNat + data.size.toNat) % 2 ^ 64 := by
    rw [LoadedModule.range, textRange, rodataRange, dataRange, BitVec.toNat_add, BitVec.toNat_add,
      Nat.mod_add_mod]
    rfl
  have start : found.range.mStart = text.base_address := by
    rw [LoadedModule.range, textRange]
    rfl
  have textBound := tiles.bounded _ _ first
  have rodataBound := tiles.bounded _ _ second
  have dataBound := tiles.bounded _ _ queried
  have dataSize := tiles.nonempty queried
  constructor
  · rintro ⟨ascending, ascending', covers⟩
    rw [textRange, rodataRange] at ascending
    rw [rodataRange, dataRange] at ascending'
    rw [textRange, rodataRange, dataRange] at covers
    have covered := Range.stop_le_of_covers (show 0 < data.range.mSize.toNat from dataSize) dataBound
      (covers _ (by simp))
    rw [start, total] at covered
    change text.base_address.toNat + text.size.toNat ≤ rodata.base_address.toNat at ascending
    change rodata.base_address.toNat + rodata.size.toNat ≤ data.base_address.toNat at ascending'
    change data.base_address.toNat + data.size.toNat ≤ _ at covered
    have stop : rodata.stop = data.base_address := by
      rw [← BitVec.toNat_inj, MemoryInfo.stop, BitVec.toNat_add]
      omega
    have third : queryMemory rodata.stop = some data := by
      refine tiles.same _ _ _ queried ?_
      rw [stop]
      exact ⟨le_rfl, Nat.lt_add_of_pos_right dataSize⟩
    exact ⟨text, rodata, data, first, second, third, write, by omega, by omega, by omega⟩
  · rintro ⟨text', rodata', data', first', second', third, write', inText, inRodata, sum⟩
    obtain rfl := Option.some.inj (first.symm.trans first')
    obtain rfl := Option.some.inj (second.symm.trans second')
    obtain ⟨next, fuel', there, skipped⟩ := skipRead_of_read read skipped
    obtain rfl := Option.some.inj (third.symm.trans there)
    obtain rfl := skipRead_of_not_read (by rw [write']; decide) skipped
    have rodataBase := tiles.next_base first inText second
    have dataBase := tiles.next_base second inRodata third
    refine ⟨?_, ?_, ?_⟩
    · rw [textRange, rodataRange]
      exact rodataBase.ge
    · rw [rodataRange, dataRange]
      exact dataBase.ge
    · rw [textRange, rodataRange, dataRange]
      intro section_ member address inside
      rw [Range.Contains, start, total, Nat.mod_eq_of_lt sum]
      simp only [List.mem_cons, List.not_mem_nil, or_false] at member
      rcases member with rfl | rfl | rfl <;> obtain ⟨lower, upper⟩ := inside <;>
        simp only [MemoryInfo.range] at lower upper <;> omega

/-- A query of some regions. -/
def queryRegions (regions : List MemoryInfo) : QueryMemory := fun address =>
  regions.find? fun info => info.range.Contains address

theorem tiles_queryRegions {regions : List MemoryInfo}
    (ascending : regions.Pairwise fun first second =>
      first.base_address.toNat + first.size.toNat ≤ second.base_address.toNat)
    (bounded : ∀ info ∈ regions, info.base_address.toNat + info.size.toNat ≤ 2 ^ 64) :
    Tiles (queryRegions regions) := by
  refine ⟨fun address info here => ?_,
    fun address info here => bounded info (List.mem_of_find?_eq_some here),
    fun address info other here inside => ?_⟩
  · rw [queryRegions] at here
    simpa using List.find?_some here
  have member := List.mem_of_find?_eq_some here
  clear here bounded
  rw [queryRegions]
  induction regions with
  | nil => cases member
  | cons first rest ih =>
    obtain ⟨before, ascending⟩ := List.pairwise_cons.mp ascending
    cases member with
    | head => rw [List.find?_cons_of_pos (by exact decide_eq_true inside)]
    | tail _ member =>
      have later := before info member
      have apart : ¬ first.range.Contains other := by
        rintro ⟨_, upper⟩
        have lower := inside.1
        simp only [MemoryInfo.range] at upper lower
        omega
      rw [List.find?_cons_of_neg (by simpa using apart)]
      exact ih ascending member

/-- Text, rodata and data in a row. -/
def rowOfThree : List MemoryInfo :=
  [⟨0x1000, 0x1000, .ReadExecute⟩, ⟨0x2000, 0x1000, .Read⟩, ⟨0x3000, 0x1000, .ReadWrite⟩]

/-- Another region that can be read between rodata and data. -/
def rowOfFour : List MemoryInfo :=
  [⟨0x1000, 0x1000, .ReadExecute⟩, ⟨0x2000, 0x1000, .Read⟩, ⟨0x3000, 0x1000, .Read⟩,
    ⟨0x4000, 0x1000, .ReadWrite⟩]

/-- A module before its ranges are found. -/
def unranged : LoadedModule := ⟨⟨{}, {}, {}, {}⟩, {}⟩

theorem laid_rowOfThree : ∃ found,
    unranged.findRanges (queryRegions rowOfThree) 2 0x1000 = .ok found ∧ Laid found := by
  have tiles : Tiles (queryRegions rowOfThree) := tiles_queryRegions (by decide) (by decide)
  have consecutive : Consecutive (queryRegions rowOfThree) 0x1000 :=
    ⟨⟨0x1000, 0x1000, .ReadExecute⟩, ⟨0x2000, 0x1000, .Read⟩, ⟨0x3000, 0x1000, .ReadWrite⟩,
      by decide, by decide, by decide, rfl, by decide, by decide, by decide⟩
  have accepted : unranged.findRanges (queryRegions rowOfThree) 2 0x1000 = .ok _ := rfl
  exact ⟨_, accepted, (laid_iff_consecutive tiles accepted).mpr consecutive⟩

/-- The data is not in the range then. -/
theorem not_laid : ¬ ∀ queryMemory fuel m_Base (module found : LoadedModule), Tiles queryMemory →
    module.findRanges queryMemory fuel m_Base = .ok found → Laid found := by
  intro holds
  have tiles : Tiles (queryRegions rowOfFour) := tiles_queryRegions (by decide) (by decide)
  have laid := holds _ 3 0x1000 unranged _ tiles rfl
  have inside := laid.covers ⟨0x4000, 0x1000⟩ (by simp [MemoryInfo.range]) 0x4000 (by decide)
  exact absurd inside (by decide)

/-! ## Modules by address -/

section Locate

variable (sModules : List LoadedModule) (addr : Ptr)

/-- The module that is found is the one with the address. -/
def Locates : Prop :=
  ∀ i, getModuleContaining sModules addr = some i ↔
    ∃ module, sModules[i]? = some module ∧ module.range.Contains addr

/-- An install by pointer is the install at the same word by offset. -/
def InstallsSame : Prop :=
  ∀ (R : Type) (installAtOffset : ℕ → U64 → R), addr ≠ 0 →
    (∀ (i : ℕ) (module : LoadedModule) offset, sModules[i]? = some module → offset.toNat < module.range.mSize.toNat →
      addr = module.range.mStart + offset →
      installAtPtr sModules installAtOffset addr = .installed (installAtOffset i offset)) ∧
    ((∀ (i : ℕ) (module : LoadedModule), sModules[i]? = some module → ¬ module.range.Contains addr) →
      installAtPtr sModules installAtOffset addr = .OutOfBounds)

/-- Ranges of modules in the address space, none of which overlaps another one. -/
structure Separate : Prop where
  bounded : ∀ module ∈ sModules,
    module.range.mStart.toNat + module.range.mSize.toNat ≤ 2 ^ 64
  apart : sModules.Pairwise fun first second =>
    ∀ address, first.range.Contains address → ¬ second.range.Contains address

/-- A module that ends at the address comes after the one with the address, if it is there; the one
with the address does not end where the address space does. -/
structure Unconfused : Prop where
  ends : ∀ (i : ℕ) (module : LoadedModule), sModules[i]? = some module →
    module.range.mStart.toNat + module.range.mSize.toNat = addr.toNat →
    ∃ j < i, ∃ other : LoadedModule, sModules[j]? = some other ∧ other.range.Contains addr
  below : ∀ module ∈ sModules, module.range.Contains addr →
    module.range.mStart.toNat + module.range.mSize.toNat < 2 ^ 64

end Locate

variable {sModules : List LoadedModule} {addr : Ptr}

theorem getModuleContaining_eq_some {i : ℕ} :
    getModuleContaining sModules addr = some i ↔
      (∃ module, sModules[i]? = some module ∧ module.range.mStart ≤ addr ∧
        addr ≤ module.range.stop) ∧
      ∀ j < i, ∀ other : LoadedModule, sModules[j]? = some other →
        ¬ (other.range.mStart ≤ addr ∧ addr ≤ other.range.stop) := by
  rw [getModuleContaining, List.findIdx?_eq_some_iff_getElem]
  constructor
  · rintro ⟨small, here, before⟩
    refine ⟨⟨sModules[i], List.getElem?_eq_getElem small, by simpa using here⟩, ?_⟩
    intro j less other there
    obtain ⟨small', rfl⟩ := List.getElem?_eq_some_iff.mp there
    simpa using before j less
  · rintro ⟨⟨module, there, here⟩, before⟩
    obtain ⟨small, rfl⟩ := List.getElem?_eq_some_iff.mp there
    refine ⟨small, by simpa using here, fun j less => ?_⟩
    simpa using before j less _ (List.getElem?_eq_getElem (Nat.lt_trans less small))

/-- The two comparisons of a module in the address space. -/
theorem compares_iff {module : LoadedModule}
    (bounded : module.range.mStart.toNat + module.range.mSize.toNat ≤ 2 ^ 64) :
    (module.range.mStart ≤ addr ∧ addr ≤ module.range.stop) ↔
      module.range.mStart.toNat + module.range.mSize.toNat < 2 ^ 64 ∧ (module.range.Contains addr ∨
        module.range.mStart.toNat + module.range.mSize.toNat = addr.toNat) := by
  have small := module.range.mSize.isLt
  rw [BitVec.le_def, BitVec.le_def, Range.stop, BitVec.toNat_add, Range.Contains]
  omega

theorem Separate.unique (separate : Separate sModules) {i j : ℕ} {first second : LoadedModule}
    {address : Ptr} (one : sModules[i]? = some first) (two : sModules[j]? = some second)
    (here : first.range.Contains address) (there : second.range.Contains address) : i = j := by
  obtain ⟨small, rfl⟩ := List.getElem?_eq_some_iff.mp one
  obtain ⟨small', rfl⟩ := List.getElem?_eq_some_iff.mp two
  have apart := List.pairwise_iff_getElem.mp separate.apart
  rcases lt_trichotomy i j with less | same | more
  · exact absurd there (apart i j small small' less address here)
  · exact same
  · exact absurd here (apart j i small' small more address there)

theorem Locates.unconfused (separate : Separate sModules) (locates : Locates sModules addr) :
    Unconfused sModules addr := by
  constructor
  · intro i module there ends
    have bounded := separate.bounded module (List.mem_of_getElem? there)
    have compares := (compares_iff bounded).mpr ⟨ends ▸ addr.isLt, .inr ends⟩
    cases result : getModuleContaining sModules addr with
    | none =>
      have fails := List.findIdx?_eq_none_iff.mp result module (List.mem_of_getElem? there)
      exact absurd compares (of_decide_eq_false fails)
    | some k =>
      obtain ⟨other, there', inside⟩ := (locates k).mp result
      obtain ⟨-, before⟩ := getModuleContaining_eq_some.mp result
      rcases lt_trichotomy k i with less | rfl | more
      · exact ⟨k, less, other, there', inside⟩
      · obtain rfl := Option.some.inj (there.symm.trans there')
        exact absurd inside.2 (by omega)
      · exact absurd compares (before i more module there)
  · intro module member inside
    obtain ⟨i, there⟩ := List.getElem?_of_mem member
    obtain ⟨⟨other, there', compares⟩, -⟩ :=
      getModuleContaining_eq_some.mp ((locates i).mpr ⟨module, there, inside⟩)
    obtain rfl := Option.some.inj (there.symm.trans there')
    exact ((compares_iff (separate.bounded module member)).mp compares).1

theorem Unconfused.locates (separate : Separate sModules) (unconfused : Unconfused sModules addr) :
    Locates sModules addr := by
  intro i
  have compares {module : LoadedModule} (member : module ∈ sModules)
      (inside : module.range.Contains addr) :
      module.range.mStart ≤ addr ∧ addr ≤ module.range.stop :=
    (compares_iff (separate.bounded module member)).mpr
      ⟨unconfused.below module member inside, .inl inside⟩
  rw [getModuleContaining_eq_some]
  constructor
  · rintro ⟨⟨module, there, here⟩, before⟩
    have bounded := separate.bounded module (List.mem_of_getElem? there)
    refine ⟨module, there, ?_⟩
    rcases ((compares_iff bounded).mp here).2 with inside | ends
    · exact inside
    · obtain ⟨j, less, other, there', inside⟩ := unconfused.ends i module there ends
      exact absurd (compares (List.mem_of_getElem? there') inside) (before j less other there')
  · rintro ⟨module, there, inside⟩
    refine ⟨⟨module, there, compares (List.mem_of_getElem? there) inside⟩, ?_⟩
    intro j less other there' here
    have bounded := separate.bounded other (List.mem_of_getElem? there')
    rcases ((compares_iff bounded).mp here).2 with inside' | ends
    · exact absurd (separate.unique there' there inside' inside) (Nat.ne_of_lt less)
    · obtain ⟨k, less', third, there'', inside'⟩ := unconfused.ends j other there' ends
      have same := separate.unique there'' there inside' inside
      omega

theorem Locates.installsSame (separate : Separate sModules) (locates : Locates sModules addr) :
    InstallsSame sModules addr := by
  intro R installAtOffset nonnull
  constructor
  · intro i module offset there small same
    have bounded := separate.bounded module (List.mem_of_getElem? there)
    have inside : module.range.Contains addr := by
      rw [Range.Contains, same, BitVec.toNat_add, Nat.mod_eq_of_lt (by omega)]
      omega
    rw [installAtPtr, if_neg nonnull, (locates i).mpr ⟨module, there, inside⟩]
    simp only [there]
    rw [same, BitVec.add_comm, BitVec.add_sub_cancel]
  · intro nowhere
    rw [installAtPtr, if_neg nonnull]
    cases result : getModuleContaining sModules addr with
    | none => rfl
    | some i =>
      obtain ⟨module, there, inside⟩ := (locates i).mp result
      exact absurd inside (nowhere i module there)

/-- The search by address is right exactly if no module that ends at the address comes first. -/
theorem locates_iff_unconfused (separate : Separate sModules) :
    (Locates sModules addr ∧ InstallsSame sModules addr) ↔ Unconfused sModules addr :=
  ⟨fun ⟨locates, _⟩ => locates.unconfused separate, fun unconfused =>
    have locates := unconfused.locates separate
    ⟨locates, locates.installsSame separate⟩⟩

/-- Two modules back to back. -/
def backToBack : List LoadedModule :=
  [⟨⟨⟨0x1000, 0x1000⟩, ⟨0x2000, 0x1000⟩, {}, {}⟩, ⟨0x3000, 0x1000⟩⟩,
    ⟨⟨⟨0x4000, 0x1000⟩, ⟨0x5000, 0x1000⟩, {}, {}⟩, ⟨0x6000, 0x1000⟩⟩]

theorem separate_backToBack : Separate backToBack := by
  refine ⟨by decide, List.pairwise_cons.mpr ⟨?_, List.pairwise_singleton ..⟩⟩
  intro second member address first there
  obtain rfl := List.mem_singleton.mp member
  have upper : address.toNat < 0x4000 := first.2
  have lower : 0x4000 ≤ address.toNat := there.1
  omega

/-- An address inside the second module. -/
theorem locates_backToBack : Locates backToBack 0x4004 ∧ InstallsSame backToBack 0x4004 := by
  have elsewhere : ∀ module ∈ backToBack,
      module.range.mStart.toNat + module.range.mSize.toNat ≠ (0x4004 : Ptr).toNat := by decide
  have unconfused : Unconfused backToBack 0x4004 :=
    ⟨fun _ module there ends => absurd ends (elsewhere module (List.mem_of_getElem? there)), by decide⟩
  exact (locates_iff_unconfused separate_backToBack).mpr unconfused

/-- The first address of the second module is found in the first one. -/
theorem not_locates : ¬ ∀ sModules addr, Separate sModules → Locates sModules addr := by
  intro holds
  have first : getModuleContaining backToBack 0x4000 = some 0 := by decide
  obtain ⟨module, there, inside⟩ := (holds backToBack 0x4000 separate_backToBack 0).mp first
  obtain rfl := Option.some.inj there
  exact absurd inside (by decide)

end Hakkun.Ro
