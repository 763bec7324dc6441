import Hakkun.Soundness.VersionLayout

/-! # Version tables that are read as they are meant

The reader finds in the tables what the version list says of each module, as long as no module is
given by its index and no name is where bit 16 of its offset is set.
-/

namespace Hakkun.Sail

open Machine (Fragment HoldsAt readWord readWord_of_holdsAt wordBytes)

variable {isSymbolChar : BitVec 8 → Bool} {versionList before after : VersionList} {name : Name}
  {module : VersionListModule} {image : List (BitVec 8)}

/-! ## The image -/

theorem length_of_emits {offset : TableSymbol → Option ℕ} {directives : List Directive}
    {bytes : List (BitVec 8)} (emits : Emits isSymbolChar offset directives bytes) :
    bytes.length = Fragment.totalSize (directives.map Directive.shape) := by
  obtain ⟨source, parsed, encoded⟩ := emits
  have sizes := congrArg (List.map Prod.snd) (shapes_of_fragments parsed)
  rw [List.map_map, List.map_map] at sizes
  rw [Fragment.length_of_encodeAll encoded]
  exact congrArg List.sum sizes

theorem assembleVersions_eq_some (distinct : (versionList.map Prod.fst).Nodup) :
    assembleVersions isSymbolChar versionList = some image ↔
      Emits isSymbolChar (place versionList) (emitVersions versionList) image := by
  have known {source : List (Fragment TableSymbol)}
      (parsed : (emitVersions versionList).mapM (Directive.fragment isSymbolChar) = some source) :
      (Fragment.symbols source).Nodup ∧
        (fun symbol => Fragment.offset symbol source) = place versionList := by
    have shapes := shapes_of_fragments parsed
    refine ⟨?_, funext fun symbol => Fragment.offset_congr shapes⟩
    have same := congrArg (List.filterMap Prod.fst) shapes
    rw [List.filterMap_map, List.filterMap_map] at same
    change Fragment.symbols source = Fragment.symbols _ at same
    rw [same]
    exact nodup_symbols distinct
  rw [assembleVersions, Option.bind_eq_bind, Option.bind_eq_some_iff]
  refine exists_congr fun source => and_congr_right fun parsed => ?_
  obtain ⟨nodup, offsets⟩ := known parsed
  rw [Fragment.assemble, if_pos nodup, offsets]

theorem emits_tables {offset : TableSymbol → Option ℕ} :
    Emits isSymbolChar offset (emitVersions versionList) image ↔
      ∃ header, Emits isSymbolChar offset (versionList.flatMap words) header ∧
        (∀ pair ∈ versionList, Recordable isSymbolChar pair.1 pair.2) ∧
          image = header ++ versionList.flatMap fun pair => recordBytes pair.2 := by
  rw [emitVersions_eq, Emits.cons]
  constructor
  · rintro ⟨first, rest, start, there, rfl⟩
    obtain ⟨-, rfl⟩ := Emits.label.mp start
    obtain ⟨header, records, here, recorded, rfl⟩ := Emits.append.mp there
    obtain ⟨each, rfl⟩ := (Emits.flatMap fun pair bytes => emits_record).mp recorded
    exact ⟨header, here, each, rfl⟩
  · rintro ⟨header, here, each, rfl⟩
    exact ⟨[], _, Emits.label.mpr ⟨rfl, rfl⟩, Emits.append.mpr ⟨header, _, here,
      (Emits.flatMap fun pair bytes => emits_record).mpr ⟨each, rfl⟩, rfl⟩, rfl⟩

section Words

variable (distinct : ((before ++ (name, module) :: after).map Prod.fst).Nodup)
include distinct

theorem emits_words (valid : isSymbol isSymbolChar (.moduleVersions name) = true)
    {bytes : List (BitVec 8)} :
    Emits isSymbolChar (place (before ++ (name, module) :: after)) (words (name, module)) bytes ↔
      (module.versions ≠ [] →
          versionsAt (before ++ (name, module) :: after).length before < 2 ^ 32) ∧
        ∃ word, NameWord module (nameAt (before ++ (name, module) :: after).length before module)
            word ∧
          bytes = wordBytes (versionsWordOf module
            (versionsAt (before ++ (name, module) :: after).length before)) ++ wordBytes word := by
  have first (bytes : List (BitVec 8)) :
      Emits isSymbolChar (place _) [module.versionsWord name] bytes ↔ _ :=
    emits_versionsWord place_gVersions valid (place_moduleVersions distinct)
  have second (bytes : List (BitVec 8)) :
      Emits isSymbolChar (place _) [module.nameWord name] bytes ↔ _ :=
    emits_nameWord place_gVersions valid (place_moduleNames distinct)
  rw [words, Emits.cons]
  constructor
  · rintro ⟨start, rest, here, there, rfl⟩
    obtain ⟨small, rfl⟩ := (first start).mp here
    obtain ⟨word, read, rfl⟩ := (second rest).mp there
    exact ⟨small, word, read, rfl⟩
  · rintro ⟨small, word, read, rfl⟩
    exact ⟨_, _, (first _).mpr ⟨small, rfl⟩, (second _).mpr ⟨word, read, rfl⟩, rfl⟩

end Words

/-- What has to hold of a module, and where it is, for the tables to be assembled. -/
structure Assembles (isSymbolChar : BitVec 8 → Bool) (count : ℕ) (before : VersionList)
    (name : Name) (module : VersionListModule) : Prop where
  recordable : Recordable isSymbolChar name module
  near : module.versions ≠ [] → versionsAt count before < 2 ^ 32
  named : ∃ word, NameWord module (nameAt count before module) word

theorem exists_image (distinct : (versionList.map Prod.fst).Nodup) :
    (∃ image, assembleVersions isSymbolChar versionList = some image) ↔
      ∀ before name module after, versionList = before ++ (name, module) :: after →
        Assembles isSymbolChar versionList.length before name module := by
  simp only [assembleVersions_eq_some distinct, emits_tables]
  constructor
  · rintro ⟨image, header, words_, recorded, rfl⟩ before name module after rfl
    have recordable := recorded (name, module) (by simp)
    rw [List.flatMap_append, List.flatMap_cons] at words_
    obtain ⟨_, _, -, rest, -⟩ := Emits.append.mp words_
    obtain ⟨_, _, own, -, -⟩ := Emits.append.mp rest
    obtain ⟨near, word, read, -⟩ := (emits_words distinct recordable.symbol).mp own
    exact ⟨recordable, near, word, read⟩
  · intro each
    have header : ∀ rest before, versionList = before ++ rest →
        ∃ header, Emits isSymbolChar (place versionList) (rest.flatMap words) header := by
      intro rest
      induction rest with
      | nil => exact fun before parts => ⟨[], Emits.nil.mpr rfl⟩
      | cons pair rest ih =>
        intro before parts
        obtain ⟨later, emits⟩ := ih (before ++ [pair]) (by rw [parts, List.append_assoc]; rfl)
        obtain ⟨recordable, near, word, read⟩ := each before pair.1 pair.2 rest parts
        subst parts
        exact ⟨_, Emits.append.mpr ⟨_, later,
          (emits_words distinct recordable.symbol).mpr ⟨near, word, read, rfl⟩, emits, rfl⟩⟩
    obtain ⟨header, emits⟩ := header versionList [] rfl
    refine ⟨_, header, emits, fun pair member => ?_, rfl⟩
    obtain ⟨before, after, parts⟩ := List.append_of_mem member
    exact (each before pair.1 pair.2 after parts).recordable

theorem length_flatMap_recordBytes (versionList : VersionList) :
    (versionList.flatMap fun pair => recordBytes pair.2).length =
      (versionList.map fun pair => recordSize pair.2).sum := by
  have record (module : VersionListModule) : (recordBytes module).length = recordSize module := by
    rw [recordBytes, recordSize, mod0NameBytes, List.length_append, List.length_append,
      List.length_flatMap]
    simp only [length_versionBytes, List.map_const', List.sum_replicate_nat]
    split <;> simp [wordBytes, Nat.mul_comm]
  rw [List.length_flatMap]
  simp only [record]

/-- What an image holds of a module. -/
theorem image_holds (distinct : ((before ++ (name, module) :: after).map Prod.fst).Nodup)
    (assembled : assembleVersions isSymbolChar (before ++ (name, module) :: after) = some image) :
    ∃ word, NameWord module (nameAt (before ++ (name, module) :: after).length before module) word ∧
      HoldsAt image (8 * before.length) (wordBytes (versionsWordOf module
        (versionsAt (before ++ (name, module) :: after).length before)) ++ wordBytes word) ∧
      HoldsAt image (versionsAt (before ++ (name, module) :: after).length before)
        (recordBytes module) := by
  rw [assembleVersions_eq_some distinct, emits_tables] at assembled
  obtain ⟨header, emits, recorded, rfl⟩ := assembled
  have size := length_of_emits emits
  rw [totalSize_words] at size
  rw [List.flatMap_append, List.flatMap_cons] at emits
  obtain ⟨front, rest, ahead, behind, rfl⟩ := Emits.append.mp emits
  obtain ⟨own, back, here, -, rfl⟩ := Emits.append.mp behind
  obtain ⟨-, word, read, same⟩ :=
    (emits_words distinct (recorded (name, module) (by simp)).symbol).mp here
  refine ⟨word, read, ?_, ?_⟩
  · rw [← same]
    exact ⟨front, back ++ (before ++ (name, module) :: after).flatMap fun pair =>
      recordBytes pair.2, by rw [List.append_assoc, List.append_assoc],
      by rw [length_of_emits ahead, totalSize_words]⟩
  · refine ⟨front ++ (own ++ back) ++ before.flatMap fun pair => recordBytes pair.2,
      after.flatMap fun pair => recordBytes pair.2, ?_, ?_⟩
    · rw [List.flatMap_append, List.flatMap_cons]
      simp only [List.append_assoc]
    · rw [List.length_append, size, length_flatMap_recordBytes, versionsAt]

/-! ## Reading -/

theorem readVersion_of_holdsAt {pair : Name × BuildId} {offset : ℕ}
    (holds : HoldsAt image offset (versionBytes pair)) :
    readVersion image offset = some (pair.2, shortName pair.1) := by
  have inside := holds.le_length
  rw [length_versionBytes] at inside
  have name : (image.drop (offset + 16)).take 8 = shortName pair.1 := by
    have right := holds.right
    rw [Vector.length_toList] at right
    obtain ⟨rest, tail⟩ := right.drop
    rw [tail, List.take_left' (length_shortName _)]
  have id : (Vector.ofFn fun i : Fin 16 => image.getD (offset + i) 0) = pair.2 := by
    apply Vector.ext
    intro i bound
    have here : image[offset + i]? = pair.2.toList[i]? :=
      holds.left.getElem? (by rwa [Vector.length_toList])
    rw [Vector.getElem_ofFn, List.getD_eq_getElem?_getD, here, List.getElem?_eq_getElem
      (by rwa [Vector.length_toList]), Option.getD_some, Vector.getElem_toList]
  rw [readVersion, if_pos inside, name, id]

theorem readVersions_of_holdsAt {versions : VersionMap} {offset : ℕ}
    (holds : HoldsAt image offset (versions.flatMap versionBytes)) :
    readVersions image offset versions.length =
      some (versions.map fun pair => (pair.2, shortName pair.1)) := by
  induction versions generalizing offset with
  | nil => rfl
  | cons pair rest ih =>
    rw [List.flatMap_cons] at holds
    have later := holds.right
    rw [length_versionBytes] at later
    rw [List.length_cons, readVersions, readVersion_of_holdsAt holds.left, ih later]
    rfl

theorem readString_of_holdsAt {text : Name} {offset : ℕ}
    (holds : HoldsAt image offset (text ++ [0])) (plain : ∀ c ∈ text, c ≠ 0) :
    readString image offset = some text := by
  obtain ⟨rest, tail⟩ := holds.drop
  rw [readString, tail, if_pos (by simp), List.append_assoc, List.takeWhile_append_of_pos
    fun c member => decide_eq_true (plain c member)]
  simp

/-- What the tables are meant to say of a module. -/
def VersionListModule.entry (module : VersionListModule) : TableEntry where
  versions :=
    if module.versions = [] then none
    else some (module.versions.map fun pair => (pair.2, shortName pair.1))
  moduleIndexOverride := module.index.toInt
  mod0Name := if module.index ≠ -1 ∨ module.mod0Name = [] then none else some module.mod0Name

theorem moduleIndexOverride_ofNat {n : ℕ} :
    moduleIndexOverride (BitVec.ofNat 32 n) = -1 ↔ n.testBit 16 = false := by
  have bits (i : ℕ) : (BitVec.ofNat 32 n &&& 1#32 <<< 16).getLsbD i =
      (decide (i = 16) && n.testBit 16) := by
    rw [BitVec.getLsbD_and, BitVec.getLsbD_shiftLeft, BitVec.getLsbD_ofNat, BitVec.getLsbD_one]
    by_cases here : i = 16
    · subst here
      simp
    · have other : ¬ (16 ≤ i ∧ i - 16 = 0) := by omega
      simp only [not_and] at other
      by_cases above : 16 ≤ i
      · simp [here, other above]
      · simp [here, above]
  have marked : BitVec.ofNat 32 n &&& 1#32 <<< 16 = 0 ↔ n.testBit 16 = false := by
    constructor
    · intro none
      have bit := bits 16
      rw [none] at bit
      simpa using bit.symm
    · intro clear
      apply BitVec.eq_of_getLsbD_eq
      intro i bound
      rw [bits, clear, Bool.and_false]
      exact BitVec.getLsbD_zero.symm
  rw [moduleIndexOverride, ← marked]
  split
  · case isTrue some =>
    exact iff_of_false (by omega) some
  · case isFalse none =>
    exact iff_of_true rfl (not_not.mp none)

theorem moduleIndexOverride_of_readEntry {i : ℕ} {entry : TableEntry} {word : U32}
    (read : readEntry image i = some entry) (second : readWord image (8 * i + 4) = some word) :
    entry.moduleIndexOverride = moduleIndexOverride word := by
  rw [readEntry, second] at read
  obtain ⟨versionsOffset, -, read⟩ := Option.bind_eq_some_iff.mp read
  obtain ⟨second, same, read⟩ := Option.bind_eq_some_iff.mp read
  obtain ⟨mod0Name, -, read⟩ := Option.bind_eq_some_iff.mp read
  obtain ⟨versions, -, read⟩ := Option.bind_eq_some_iff.mp read
  obtain rfl := Option.some.inj same
  obtain rfl := Option.some.inj read
  rfl

/-- The name of a module and where it is are read back. -/
theorem readMod0Name_of_holdsAt {at_ : ℕ} {word : U32} (read : NameWord module at_ word)
    (unindexed : module.index = -1) (positive : 0 < at_)
    (clear : module.mod0Name ≠ [] → at_.testBit 16 = false)
    (plain : ∀ c ∈ module.mod0Name, Plain c) (holds : HoldsAt image at_ (mod0NameBytes module)) :
    moduleIndexOverride word = -1 ∧
      readMod0Name image word =
        some (if module.mod0Name = [] then none else some module.mod0Name) := by
  rw [NameWord, if_neg (not_not.mpr unindexed)] at read
  by_cases unnamed : module.mod0Name = []
  · rw [if_pos unnamed] at read
    subst read
    rw [if_pos unnamed]
    exact ⟨by decide, rfl⟩
  · rw [if_neg unnamed] at read
    obtain ⟨small, rfl⟩ := read
    have same : (BitVec.ofNat 32 at_).toNat = at_ := Nat.mod_eq_of_lt small
    have unmarked := moduleIndexOverride_ofNat.mpr (clear unnamed)
    have there : BitVec.ofNat 32 at_ ≠ 0 := fun zero => by
      rw [zero] at same
      exact Nat.ne_of_gt positive same.symm
    rw [mod0NameBytes, if_neg unnamed] at holds
    refine ⟨unmarked, ?_⟩
    rw [readMod0Name, if_neg (not_or.mpr ⟨there, not_not.mpr unmarked⟩), same,
      readString_of_holdsAt holds fun c member => (plain c member).2.2, if_neg unnamed]
    rfl

theorem readVersionList_of_holdsAt {at_ : ℕ} {after : List (BitVec 8)}
    (near : module.versions ≠ [] → at_ < 2 ^ 32) (positive : 0 < at_)
    (count : module.versions.length < 2 ^ 32)
    (holds : HoldsAt image at_ (wordBytes (BitVec.ofNat 32 module.versions.length) ++
      module.versions.flatMap versionBytes ++ after)) :
    readVersionList image (versionsWordOf module at_) =
      some (if module.versions = [] then none
        else some (module.versions.map fun pair => (pair.2, shortName pair.1))) := by
  rw [readVersionList, versionsWordOf]
  by_cases none : module.versions = []
  · rw [if_pos none, if_pos none, if_pos rfl]
  · have same : (BitVec.ofNat 32 at_).toNat = at_ := Nat.mod_eq_of_lt (near none)
    have there : BitVec.ofNat 32 at_ ≠ 0 := fun zero => by
      rw [zero] at same
      exact Nat.ne_of_gt positive same.symm
    have counted : (BitVec.ofNat 32 module.versions.length).toNat = module.versions.length :=
      Nat.mod_eq_of_lt count
    have listed : readVersions image (at_ + 4) module.versions.length = _ :=
      readVersions_of_holdsAt holds.left.right
    rw [if_neg none, if_neg none, if_neg there, same, readWord_of_holdsAt holds.left.left]
    change (readVersions image (at_ + 4)
      (BitVec.ofNat 32 module.versions.length).toNat).map some = _
    rw [counted, listed]
    rfl

/-- When a module is read back. -/
theorem readEntry_iff (distinct : ((before ++ (name, module) :: after).map Prod.fst).Nodup)
    (assembled : assembleVersions isSymbolChar (before ++ (name, module) :: after) = some image) :
    readEntry image before.length = some module.entry ↔
      module.index = -1 ∧ (module.mod0Name ≠ [] → (nameAt
        (before ++ (name, module) :: after).length before module).testBit 16 = false) := by
  obtain ⟨recordable, near, -⟩ :=
    (exists_image distinct).mp ⟨image, assembled⟩ before name module after rfl
  obtain ⟨word, named, twoWords, record⟩ := image_holds distinct assembled
  have first := readWord_of_holdsAt twoWords.left
  have second := readWord_of_holdsAt twoWords.right
  have positive : 0 < versionsAt (before ++ (name, module) :: after).length before := by
    rw [versionsAt, List.length_append, List.length_cons]
    omega
  constructor
  · intro read
    have overridden := moduleIndexOverride_of_readEntry read second
    change module.index.toInt = _ at overridden
    have unindexed : module.index = -1 := by
      by_contra given
      rw [NameWord, if_pos given] at named
      exact moduleIndexOverride_ne_index given named overridden.symm
    refine ⟨unindexed, fun some => ?_⟩
    rw [NameWord, if_neg (not_not.mpr unindexed), if_neg some] at named
    rw [unindexed, named.2] at overridden
    exact moduleIndexOverride_ofNat.mp overridden.symm
  · rintro ⟨unindexed, clear⟩
    have size : (wordBytes (BitVec.ofNat 32 module.versions.length) ++
        module.versions.flatMap versionBytes).length = 4 + 24 * module.versions.length := by
      rw [List.length_append, List.length_flatMap]
      simp [length_versionBytes, wordBytes, Nat.mul_comm]
    have nameHeld := record.right
    rw [size] at nameHeld
    obtain ⟨unmarked, string⟩ := readMod0Name_of_holdsAt named unindexed (by rw [nameAt]; omega)
      clear recordable.mod0Name nameHeld
    have versions := readVersionList_of_holdsAt near positive recordable.count record
    have plus : 8 * before.length + (wordBytes (versionsWordOf module
      (versionsAt (before ++ (name, module) :: after).length before))).length =
        8 * before.length + 4 := rfl
    rw [plus] at second
    rw [readEntry, first, second]
    change (readMod0Name image word).bind _ = _
    rw [string, Option.bind_some]
    change (readVersionList image _).bind _ = _
    rw [versions, Option.bind_some, unmarked, VersionListModule.entry, unindexed]
    simp

end Hakkun.Sail
