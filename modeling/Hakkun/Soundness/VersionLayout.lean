import Hakkun.Soundness.VersionText

/-! # The layout of the version tables

There are two words for each module, and after them a record for each. Where a label is depends on
the sizes of what is before it only, which are known before anything is assembled.
-/

namespace Hakkun.Sail

open Machine (Fragment)

/-! ## Places -/

def Directive.symbol? : Directive → Option TableSymbol
  | label symbol => some symbol
  | word _ | difference .. | byte _ | ascii _ => none

/-- A fragment with the label and the size that a directive has. -/
def Directive.shape : Directive → Fragment TableSymbol
  | label symbol => .label symbol
  | word _ => .data (List.replicate 4 0)
  | difference symbol base => .difference symbol base
  | byte numbers => .data (List.replicate numbers.length 0)
  | ascii _ => .data [0]

section Shape

variable {isSymbolChar : BitVec 8 → Bool} {directive : Directive} {directives : List Directive}
  {fragment : Fragment TableSymbol} {source : List (Fragment TableSymbol)}

theorem length_of_string {quoted : Name} {bytes : List (BitVec 8)}
    (read : string quoted = some bytes) : bytes.length = 1 := by
  revert read
  fun_cases string quoted with
  | case1 => simp
  | case2 c plain =>
    rintro ⟨⟩
    rfl
  | case3 =>
    rintro ⟨⟩
    rfl
  | case4 => simp

theorem length_of_mapM {A B : Type} {f : A → Option B} {given : List A} {results : List B}
    (all : given.mapM f = some results) : results.length = given.length := by
  induction given generalizing results with
  | nil =>
    obtain rfl := Option.some.inj all
    rfl
  | cons a rest ih =>
    rw [List.mapM_cons] at all
    obtain ⟨b, -, all⟩ := Option.bind_eq_some_iff.mp all
    obtain ⟨tail, later, all⟩ := Option.bind_eq_some_iff.mp all
    obtain rfl := Option.some.inj all
    rw [List.length_cons, List.length_cons, ih later]

theorem shape_of_fragment (parsed : directive.fragment isSymbolChar = some fragment) :
    (fragment.symbol?, fragment.size) = (directive.shape.symbol?, directive.shape.size) := by
  cases directive with
  | label symbol =>
    obtain ⟨-, parsed⟩ := Option.ite_none_right_eq_some.mp parsed
    rw [← Option.some.inj parsed]
    rfl
  | word text =>
    obtain ⟨value, -, rfl⟩ := Option.map_eq_some_iff.mp parsed
    rfl
  | difference symbol base =>
    obtain ⟨-, parsed⟩ := Option.ite_none_right_eq_some.mp parsed
    rw [← Option.some.inj parsed]
    rfl
  | byte texts =>
    obtain ⟨bytes, read, rfl⟩ := Option.map_eq_some_iff.mp parsed
    change (none, bytes.length) = (none, (List.replicate texts.length (0 : BitVec 8)).length)
    rw [length_of_mapM read, List.length_replicate]
  | ascii quoted =>
    obtain ⟨bytes, read, rfl⟩ := Option.map_eq_some_iff.mp parsed
    change (none, bytes.length) = (none, 1)
    rw [length_of_string read]

theorem shapes_of_fragments
    (parsed : directives.mapM (Directive.fragment isSymbolChar) = some source) :
    source.map (fun part => (part.symbol?, part.size)) =
      (directives.map Directive.shape).map fun part => (part.symbol?, part.size) := by
  induction directives generalizing source with
  | nil =>
    obtain rfl := Option.some.inj parsed
    rfl
  | cons directive rest ih =>
    rw [List.mapM_cons] at parsed
    obtain ⟨fragment, here, parsed⟩ := Option.bind_eq_some_iff.mp parsed
    obtain ⟨tail, later, parsed⟩ := Option.bind_eq_some_iff.mp parsed
    obtain rfl := Option.some.inj parsed
    rw [List.map_cons, List.map_cons, List.map_cons, ih later, shape_of_fragment here]

end Shape

/-! ## The layout -/

def recordSize (module : VersionListModule) : ℕ :=
  4 + 24 * module.versions.length +
    if module.mod0Name = [] then 0 else module.mod0Name.length + 1

/-- The offset of the versions of a module that comes after some others. -/
def versionsAt (count : ℕ) (before : VersionList) : ℕ :=
  8 * count + (before.map fun pair => recordSize pair.2).sum

/-- The offset of its name. -/
def nameAt (count : ℕ) (before : VersionList) (module : VersionListModule) : ℕ :=
  versionsAt count before + (4 + 24 * module.versions.length)

/-- The offsets of the labels. -/
def place (versionList : VersionList) (symbol : TableSymbol) : Option ℕ :=
  Fragment.offset symbol ((emitVersions versionList).map Directive.shape)

/-- The two words of a module. -/
def words (pair : Name × VersionListModule) : List Directive :=
  [pair.2.versionsWord pair.1, pair.2.nameWord pair.1]

/-- The record of a module. -/
def record (pair : Name × VersionListModule) : List Directive :=
  pair.2.versionRecord pair.1 ++ pair.2.nameRecord pair.1

theorem emitVersions_eq (versionList : VersionList) : emitVersions versionList =
    .label .gVersions :: (versionList.flatMap words ++ versionList.flatMap record) := rfl

open Machine.Fragment (totalSize)

theorem totalSize_flatMap {A : Type} {given : List A} {emit : A → List Directive} {size : A → ℕ}
    (each : ∀ a, totalSize ((emit a).map Directive.shape) = size a) :
    totalSize ((given.flatMap emit).map Directive.shape) = (given.map size).sum := by
  induction given with
  | nil => rfl
  | cons a rest ih =>
    rw [List.flatMap_cons, List.map_append, Fragment.totalSize_append, each, ih]
    rfl

theorem totalSize_words (versionList : VersionList) :
    totalSize ((versionList.flatMap words).map Directive.shape) = 8 * versionList.length := by
  have word (pair : Name × VersionListModule) :
      totalSize ((words pair).map Directive.shape) = 8 := by
    have first : (pair.2.versionsWord pair.1).shape.size = 4 := by
      rw [VersionListModule.versionsWord]
      split <;> rfl
    have second : (pair.2.nameWord pair.1).shape.size = 4 := by
      rw [VersionListModule.nameWord]
      split
      · rfl
      · split <;> rfl
    change (pair.2.versionsWord pair.1).shape.size + ((pair.2.nameWord pair.1).shape.size + 0) = 8
    rw [first, second]
  rw [totalSize_flatMap word, List.map_const', List.sum_replicate_nat, Nat.mul_comm]

theorem totalSize_version (pair : Name × BuildId) :
    totalSize ((VersionListModule.version pair).map Directive.shape) = 24 := by
  have characters (i : ℕ) :
      (pair.1[i]?.elim VersionListModule.nul fun c => .ascii [c]).shape.size = 1 := by
    cases pair.1[i]? <;> rfl
  rw [VersionListModule.version, List.map_cons, Fragment.totalSize_cons, List.map_map]
  have id : (Directive.byte (pair.2.toList.map fun byte => padded byte.toNat)).shape.size = 16 := by
    simp [Directive.shape, Fragment.size]
  rw [id, totalSize, List.map_map]
  simp only [Function.comp_def, characters]
  rfl

theorem totalSize_versionRecord (module : VersionListModule) (name : Name) :
    totalSize ((module.versionRecord name).map Directive.shape) =
      4 + 24 * module.versions.length := by
  rw [VersionListModule.versionRecord, List.map_cons, List.map_cons, Fragment.totalSize_cons,
    Fragment.totalSize_cons, totalSize_flatMap totalSize_version, List.map_const',
    List.sum_replicate_nat, Nat.mul_comm]
  change 0 + (4 + _) = _
  rw [Nat.zero_add]

theorem totalSize_record (pair : Name × VersionListModule) :
    totalSize ((record pair).map Directive.shape) = recordSize pair.2 := by
  have characters (text : Name) :
      totalSize ((text.map fun c => Directive.ascii [c]).map Directive.shape) = text.length := by
    induction text with
    | nil => rfl
    | cons c rest ih =>
      rw [List.map_cons, List.map_cons, Fragment.totalSize_cons, ih, List.length_cons]
      exact Nat.add_comm 1 _
  rw [record, List.map_append, Fragment.totalSize_append, totalSize_versionRecord, recordSize,
    VersionListModule.nameRecord]
  split
  · rfl
  · rw [List.map_cons, List.map_append, Fragment.totalSize_cons, Fragment.totalSize_append,
      characters]
    change _ + (0 + (_ + 1)) = _
    rw [Nat.zero_add]

/-! ## Labels -/

open Machine.Fragment (symbols)

/-- The labels of a module. -/
def labels (pair : Name × VersionListModule) : List TableSymbol :=
  .moduleVersions pair.1 :: if pair.2.mod0Name = [] then [] else [.moduleNames pair.1]

theorem symbols_flatMap {A : Type} {given : List A} {emit : A → List Directive}
    {result : A → List TableSymbol}
    (each : ∀ a, symbols ((emit a).map Directive.shape) = result a) :
    symbols ((given.flatMap emit).map Directive.shape) = given.flatMap result := by
  induction given with
  | nil => rfl
  | cons a rest ih =>
    rw [List.flatMap_cons, List.map_append, Fragment.symbols_append, each, ih]
    rfl

theorem symbols_words (pair : Name × VersionListModule) :
    symbols ((words pair).map Directive.shape) = [] := by
  have word : (pair.2.versionsWord pair.1).shape.symbol? = none := by
    rw [VersionListModule.versionsWord]
    split <;> rfl
  have second : (pair.2.nameWord pair.1).shape.symbol? = none := by
    rw [VersionListModule.nameWord]
    split
    · rfl
    · split <;> rfl
  simp [words, symbols, word, second]

theorem symbols_record (pair : Name × VersionListModule) :
    symbols ((record pair).map Directive.shape) = labels pair := by
  have version (pair : Name × BuildId) :
      symbols ((VersionListModule.version pair).map Directive.shape) = [] := by
    refine List.filterMap_eq_nil_iff.mpr fun fragment member => ?_
    obtain ⟨directive, emitted, rfl⟩ := List.mem_map.mp member
    rcases List.mem_cons.mp emitted with rfl | character
    · rfl
    · obtain ⟨i, -, rfl⟩ := List.mem_map.mp character
      cases pair.1[i]? <;> rfl
  have characters (text : Name) :
      symbols ((text.map fun c => Directive.ascii [c]).map Directive.shape) = [] := by
    induction text with
    | nil => rfl
    | cons c rest ih => exact ih
  rw [record, List.map_append, Fragment.symbols_append, labels, VersionListModule.versionRecord,
    VersionListModule.nameRecord]
  change .moduleVersions pair.1 :: symbols ((pair.2.versions.flatMap VersionListModule.version).map
    Directive.shape) ++ _ = _
  rw [symbols_flatMap version, List.flatMap_eq_nil_iff.mpr fun _ _ => rfl]
  split
  · rfl
  · rw [List.map_cons, List.map_append]
    change _ :: _ :: symbols (_ ++ _) = _
    rw [Fragment.symbols_append, characters]
    rfl

theorem symbols_emitVersions (versionList : VersionList) :
    symbols ((emitVersions versionList).map Directive.shape) =
      .gVersions :: versionList.flatMap labels := by
  rw [emitVersions_eq]
  change _ :: symbols (List.map _ (_ ++ _)) = _
  rw [List.map_append, Fragment.symbols_append, symbols_flatMap symbols_words,
    symbols_flatMap symbols_record, List.flatMap_eq_nil_iff.mpr fun _ _ => rfl]
  rfl

variable {versionList before after : VersionList} {name : Name} {module : VersionListModule}

theorem nodup_symbols (distinct : (versionList.map Prod.fst).Nodup) :
    (symbols ((emitVersions versionList).map Directive.shape)).Nodup := by
  rw [symbols_emitVersions, List.nodup_cons]
  constructor
  · rw [List.mem_flatMap]
    rintro ⟨pair, -, there⟩
    rw [labels] at there
    split at there <;> simp at there
  · rw [List.nodup_flatMap]
    constructor
    · intro pair _
      rw [labels]
      split <;> simp
    · refine (List.pairwise_map.mp distinct).imp fun {first second} other => ?_
      have named {pair : Name × VersionListModule} {symbol : TableSymbol}
          (there : symbol ∈ labels pair) :
          symbol = .moduleVersions pair.1 ∨ symbol = .moduleNames pair.1 := by
        rw [labels] at there
        split at there <;> simp at there <;> tauto
      intro symbol here there
      rcases named here with rfl | rfl <;> rcases named there with same | same <;>
        simp only [TableSymbol.moduleVersions.injEq, TableSymbol.moduleNames.injEq,
          reduceCtorEq] at same <;> exact other same

/-! ## The places of the labels -/

theorem place_gVersions : place versionList .gVersions = some 0 := rfl

/-- What is emitted before the record of a module. -/
def front (before : VersionList) (pair : Name × VersionListModule) (after : VersionList) :
    List Directive :=
  .label .gVersions :: ((before ++ pair :: after).flatMap words ++ before.flatMap record)

theorem totalSize_front : totalSize ((front before (name, module) after).map Directive.shape) =
    versionsAt (before ++ (name, module) :: after).length before := by
  rw [front, List.map_cons, List.map_append, Fragment.totalSize_cons, Fragment.totalSize_append,
    totalSize_words, totalSize_flatMap totalSize_record, versionsAt]
  change 0 + _ = _
  rw [Nat.zero_add]

theorem emitVersions_front : emitVersions (before ++ (name, module) :: after) =
    front before (name, module) after ++ (record (name, module) ++ after.flatMap record) := by
  rw [emitVersions_eq, front, List.flatMap_append (f := record), List.flatMap_cons (f := record),
    List.cons_append, List.append_assoc]

theorem front_record : emitVersions (before ++ (name, module) :: after) =
    front before (name, module) after ++ .label (.moduleVersions name) ::
      (.word (hexLiteral module.versions.length) ::
        module.versions.flatMap VersionListModule.version ++ module.nameRecord name ++
          after.flatMap record) := by
  rw [emitVersions_front, record, VersionListModule.versionRecord]
  simp only [List.cons_append, List.append_assoc]

theorem front_name (named : module.mod0Name ≠ []) :
    emitVersions (before ++ (name, module) :: after) =
      (front before (name, module) after ++ module.versionRecord name) ++
        .label (.moduleNames name) :: (module.mod0Name.map (fun c => .ascii [c]) ++
          [VersionListModule.nul] ++ after.flatMap record) := by
  rw [emitVersions_front, record, VersionListModule.nameRecord, if_neg named]
  simp only [List.cons_append, List.append_assoc]

section Place

variable (distinct : ((before ++ (name, module) :: after).map Prod.fst).Nodup)
include distinct

theorem place_of_directives {front back : List Directive} {symbol : TableSymbol}
    (parts : emitVersions (before ++ (name, module) :: after) = front ++ .label symbol :: back) :
    place (before ++ (name, module) :: after) symbol =
      some (totalSize (front.map Directive.shape)) := by
  have nodup := nodup_symbols distinct
  rw [place, parts, List.map_append, List.map_cons]
  rw [parts, List.map_append, List.map_cons] at nodup
  exact Fragment.offset_of_nodup nodup

theorem place_moduleVersions : place (before ++ (name, module) :: after) (.moduleVersions name) =
    some (versionsAt (before ++ (name, module) :: after).length before) := by
  rw [← totalSize_front]
  exact place_of_directives distinct front_record

theorem place_moduleNames (named : module.mod0Name ≠ []) :
    place (before ++ (name, module) :: after) (.moduleNames name) =
      some (nameAt (before ++ (name, module) :: after).length before module) := by
  rw [nameAt, ← totalSize_front, ← totalSize_versionRecord module name,
    ← Fragment.totalSize_append, ← List.map_append]
  exact place_of_directives distinct (front_name named)

end Place

end Hakkun.Sail
