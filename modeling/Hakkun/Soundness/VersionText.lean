import Hakkun.Model.Sail.VersionTables
import Mathlib.Data.List.Flatten

/-! # The emitted version tables as bytes

Each directive is assembled to bytes unless a number is too large or a text does not stand for
itself. An index is emitted as a number without `0x`, which is not a number that the reader takes
for the index.
-/

namespace Hakkun.Sail

open Machine (Fragment HoldsAt readWord wordBytes)

/-! ## Numbers -/

theorem digitValue_digitChar : ∀ d < 16, isxdigit (Nat.digitChar d).toUpper = true ∧
    (digitValue (Nat.digitChar d).toUpper).toNat = d := by decide

theorem toHexString_spec (value : ℕ) :
    (toHexString value).all isxdigit = true ∧ hexValue (toHexString value) = value := by
  induction value using Nat.strongRecOn with
  | _ value ih =>
    by_cases small : value < 16
    · obtain ⟨digit, same⟩ := digitValue_digitChar value small
      rw [toHexString, Nat.toDigits_of_lt_base small]
      exact ⟨by simpa using digit, by simpa [hexValue] using same⟩
    · obtain ⟨digits, rest⟩ := ih (value / 16) (by omega)
      obtain ⟨digit, last⟩ := digitValue_digitChar (value % 16) (Nat.mod_lt _ (by decide))
      have split : toHexString value =
          toHexString (value / 16) ++ [(Nat.digitChar (value % 16)).toUpper] := by
        rw [toHexString, Nat.toDigits_of_base_le (by decide) (by omega), List.map_append]
        rfl
      rw [split]
      refine ⟨?_, ?_⟩
      · rw [List.all_append, digits, Bool.true_and]
        simpa using digit
      · rw [hexValue, List.foldl_append]
        change hexValue (toHexString (value / 16)) * 16 + _ = value
        rw [rest, last]
        omega

theorem toHexString_ne_nil (value : ℕ) : toHexString value ≠ [] := fun none =>
  Nat.toDigits_ne_nil (List.map_eq_nil_iff.mp none)

theorem number_hexLiteral {value width : ℕ} :
    number width (hexLiteral value) =
      if value < 2 ^ width then some (BitVec.ofNat width value) else none := by
  obtain ⟨digits, same⟩ := toHexString_spec value
  have read : integer (hexLiteral value) = some value := by
    rw [hexLiteral, integer, if_pos ⟨toHexString_ne_nil value, digits⟩, same]
  change (integer (hexLiteral value)).bind _ = _
  rw [read]
  rfl

theorem number_padded (byte : BitVec 8) : number 8 (padded byte.toNat) = some byte := by
  revert byte
  decide +kernel

/-- The small indices are emitted as numbers without bit 16. -/
theorem number_index : ∀ k < 16, ∀ word,
    number 32 (toHexString (BitVec.ofNat 32 k ||| 1#32 <<< 16).toNat) = some word →
      word &&& 1#32 <<< 16 = 0 := by
  have low : ∀ k < 16, ((number 32 (toHexString (BitVec.ofNat 32 k ||| 1#32 <<< 16).toNat)).all
      fun word => word &&& 1#32 <<< 16 = 0) = true := by decide +kernel
  intro k small word read
  have checked := low k small
  rw [read] at checked
  exact of_decide_eq_true checked

/-- No index is read back. -/
theorem moduleIndexOverride_ne_index {index word : U32} (given : index ≠ -1)
    (read : number 32 (toHexString (index ||| 1#32 <<< 16).toNat) = some word) :
    moduleIndexOverride word ≠ index.toInt := by
  intro same
  rw [moduleIndexOverride] at same
  split at same
  · case isTrue marked =>
    have small : (word &&& 0xF).toNat < 16 := by
      rw [BitVec.toNat_and]
      exact Nat.lt_succ_of_le Nat.and_le_right
    have own : index = BitVec.ofNat 32 (word &&& 0xF).toNat := by
      apply BitVec.eq_of_toInt_eq
      have low : (BitVec.ofNat 32 (word &&& 0xF).toNat).toNat = (word &&& 0xF).toNat :=
        Nat.mod_eq_of_lt (by omega)
      rw [← same, BitVec.toInt_eq_toNat_of_lt (by omega), low]
    rw [own] at read
    exact marked (number_index _ small word read)
  · exact given (BitVec.eq_of_toInt_eq same.symm)

/-! ## Directives -/

/-- The characters of a string that stand for themselves. -/
def Plain (c : BitVec 8) : Prop := c ≠ 0x22 ∧ c ≠ 0x5C ∧ c ≠ 0

theorem string_singleton {c : BitVec 8} {bytes : List (BitVec 8)} :
    string [c] = some bytes ↔ Plain c ∧ bytes = [c] := by
  rw [string]
  split
  · case isTrue special =>
    simp only [reduceCtorEq, Plain, false_iff]
    tauto
  · case isFalse plain =>
    simp only [Option.some_inj, Plain]
    tauto

variable {isSymbolChar : BitVec 8 → Bool} {offset : TableSymbol → Option ℕ}

/-- The bytes that some directives are assembled to. -/
def Emits (isSymbolChar : BitVec 8 → Bool) (offset : TableSymbol → Option ℕ)
    (directives : List Directive) (bytes : List (BitVec 8)) : Prop :=
  ∃ source, directives.mapM (Directive.fragment isSymbolChar) = some source ∧
    Fragment.encodeAll offset source = some bytes

namespace Emits

variable {directives first second : List Directive} {directive : Directive}
  {bytes : List (BitVec 8)}

theorem nil : Emits isSymbolChar offset [] bytes ↔ bytes = [] := by
  constructor
  · rintro ⟨source, parsed, encoded⟩
    obtain rfl := Option.some.inj parsed
    exact (Option.some.inj encoded).symm
  · rintro rfl
    exact ⟨[], rfl, rfl⟩

theorem append : Emits isSymbolChar offset (first ++ second) bytes ↔
    ∃ before after, Emits isSymbolChar offset first before ∧
      Emits isSymbolChar offset second after ∧ bytes = before ++ after := by
  simp only [Emits, List.mapM_append, Option.bind_eq_bind, Option.bind_eq_some_iff, Option.pure_def,
    Option.some_inj]
  constructor
  · rintro ⟨source, ⟨head, here, tail, there, rfl⟩, encoded⟩
    obtain ⟨before, after, start, rest, rfl⟩ := Fragment.encodeAll_append.mp encoded
    exact ⟨before, after, ⟨head, here, start⟩, ⟨tail, there, rest⟩, rfl⟩
  · rintro ⟨before, after, ⟨head, here, start⟩, ⟨tail, there, rest⟩, rfl⟩
    exact ⟨head ++ tail, ⟨head, here, tail, there, rfl⟩,
      Fragment.encodeAll_append.mpr ⟨before, after, start, rest, rfl⟩⟩

theorem singleton : Emits isSymbolChar offset [directive] bytes ↔
    ∃ fragment, directive.fragment isSymbolChar = some fragment ∧
      fragment.encode offset = some bytes := by
  simp only [Emits, List.mapM_cons, List.mapM_nil, Option.bind_eq_bind, Option.bind_eq_some_iff,
    Option.pure_def, Option.some_inj]
  constructor
  · rintro ⟨source, ⟨fragment, here, rest, rfl, rfl⟩, encoded⟩
    obtain ⟨bytes, after, start, done, rfl⟩ := Fragment.encodeAll_cons.mp encoded
    obtain rfl := Option.some.inj done
    exact ⟨fragment, here, by rw [start, List.append_nil]⟩
  · rintro ⟨fragment, here, encoded⟩
    exact ⟨[fragment], ⟨fragment, here, [], rfl, rfl⟩,
      Fragment.encodeAll_cons.mpr ⟨bytes, [], encoded, rfl, (List.append_nil _).symm⟩⟩

theorem cons : Emits isSymbolChar offset (directive :: second) bytes ↔
    ∃ before after, Emits isSymbolChar offset [directive] before ∧
      Emits isSymbolChar offset second after ∧ bytes = before ++ after :=
  @append _ _ [directive] second bytes

/-- What is emitted for each element of a list. -/
theorem flatMap {A : Type} {given : List A} {emit : A → List Directive} {Emitted : A → Prop}
    {result : A → List (BitVec 8)}
    (each : ∀ a bytes, Emits isSymbolChar offset (emit a) bytes ↔ Emitted a ∧ bytes = result a) :
    Emits isSymbolChar offset (given.flatMap emit) bytes ↔
      (∀ a ∈ given, Emitted a) ∧ bytes = given.flatMap result := by
  induction given generalizing bytes with
  | nil => simpa using nil
  | cons a rest ih =>
    rw [List.flatMap_cons, append, List.forall_mem_cons]
    constructor
    · rintro ⟨before, after, here, there, rfl⟩
      obtain ⟨first, rfl⟩ := (each a before).mp here
      obtain ⟨others, rfl⟩ := ih.mp there
      exact ⟨⟨first, others⟩, rfl⟩
    · rintro ⟨⟨first, others⟩, rfl⟩
      exact ⟨_, _, (each a _).mpr ⟨first, rfl⟩, ih.mpr ⟨others, rfl⟩, rfl⟩

/-- A byte is emitted for each element of a list. -/
theorem map {A : Type} {given : List A} {emit : A → Directive} {Emitted : A → Prop}
    {result : A → BitVec 8}
    (each : ∀ a bytes, Emits isSymbolChar offset [emit a] bytes ↔ Emitted a ∧ bytes = [result a]) :
    Emits isSymbolChar offset (given.map emit) bytes ↔
      (∀ a ∈ given, Emitted a) ∧ bytes = given.map result := by
  rw [List.map_eq_flatMap, List.map_eq_flatMap]
  exact flatMap each

theorem label {symbol : TableSymbol} : Emits isSymbolChar offset [.label symbol] bytes ↔
    isSymbol isSymbolChar symbol = true ∧ bytes = [] := by
  rw [singleton, Directive.fragment]
  by_cases valid : isSymbol isSymbolChar symbol = true
  · simp [valid, Fragment.encode, eq_comm]
  · simp [valid]

theorem word {text : Text} : Emits isSymbolChar offset [.word text] bytes ↔
    ∃ value, number 32 text = some value ∧ bytes = wordBytes value := by
  rw [singleton, Directive.fragment]
  constructor
  · rintro ⟨fragment, parsed, encoded⟩
    obtain ⟨value, read, rfl⟩ := Option.map_eq_some_iff.mp parsed
    exact ⟨value, read, (Option.some.inj encoded).symm⟩
  · rintro ⟨value, read, rfl⟩
    exact ⟨.data (wordBytes value), by rw [read]; rfl, rfl⟩

theorem byte {texts : List Text} : Emits isSymbolChar offset [.byte texts] bytes ↔
    texts.mapM (number 8) = some bytes := by
  rw [singleton, Directive.fragment]
  constructor
  · rintro ⟨fragment, parsed, encoded⟩
    obtain ⟨values, read, rfl⟩ := Option.map_eq_some_iff.mp parsed
    rw [read]
    exact encoded
  · intro read
    exact ⟨.data bytes, by rw [read]; rfl, rfl⟩

theorem ascii {quoted : Name} : Emits isSymbolChar offset [.ascii quoted] bytes ↔
    string quoted = some bytes := by
  rw [singleton, Directive.fragment]
  constructor
  · rintro ⟨fragment, parsed, encoded⟩
    obtain ⟨value, read, rfl⟩ := Option.map_eq_some_iff.mp parsed
    rw [read]
    exact encoded
  · intro read
    exact ⟨.data bytes, by rw [read]; rfl, rfl⟩

theorem difference {symbol base : TableSymbol} :
    Emits isSymbolChar offset [.difference symbol base] bytes ↔
      (isSymbol isSymbolChar symbol = true ∧ isSymbol isSymbolChar base = true) ∧
        (Fragment.difference symbol base).encode offset = some bytes := by
  rw [singleton, Directive.fragment]
  by_cases valid : isSymbol isSymbolChar symbol = true ∧ isSymbol isSymbolChar base = true
  · simp [valid]
  · rw [if_neg valid]
    simp [valid]

end Emits

/-! ## Records -/

/-- The name of a version as the tables hold it. -/
def shortName (name : Name) : Name := (List.range 8).map fun i => name.getD i 0

def versionBytes (pair : Name × BuildId) : List (BitVec 8) := pair.2.toList ++ shortName pair.1

theorem length_shortName (name : Name) : (shortName name).length = 8 := by simp [shortName]

theorem length_versionBytes (pair : Name × BuildId) : (versionBytes pair).length = 24 := by
  simp [versionBytes, length_shortName]

theorem emits_version {pair : Name × BuildId} {bytes : List (BitVec 8)} :
    Emits isSymbolChar offset (VersionListModule.version pair) bytes ↔
      (∀ c ∈ pair.1.take 8, Plain c) ∧ bytes = versionBytes pair := by
  have id : (pair.2.toList.map fun byte => padded byte.toNat).mapM (number 8) =
      some pair.2.toList := by
    generalize pair.2.toList = list
    induction list with
    | nil => rfl
    | cons byte rest ih =>
      rw [List.map_cons, List.mapM_cons, number_padded, ih]
      rfl
  have character : ∀ i bytes, Emits isSymbolChar offset
      [pair.1[i]?.elim VersionListModule.nul fun c => .ascii [c]] bytes ↔
        (∀ c, pair.1[i]? = some c → Plain c) ∧ bytes = [pair.1.getD i 0] := by
    intro i bytes
    rw [List.getD_eq_getElem?_getD]
    cases pair.1[i]? with
    | none =>
      refine Emits.ascii.trans ?_
      simp [string, eq_comm]
    | some c =>
      refine Emits.ascii.trans (string_singleton.trans ?_)
      simp
  rw [VersionListModule.version, Emits.cons]
  constructor
  · rintro ⟨before, after, here, there, rfl⟩
    obtain rfl := Option.some.inj (id.symm.trans (Emits.byte.mp here))
    obtain ⟨plain, rfl⟩ := (Emits.map character).mp there
    refine ⟨fun c member => ?_, rfl⟩
    obtain ⟨i, bound, rfl⟩ := List.mem_iff_getElem.mp member
    rw [List.length_take] at bound
    refine plain i (List.mem_range.mpr (by omega)) _ ?_
    rw [List.getElem_take, List.getElem?_eq_getElem]
  · rintro ⟨plain, rfl⟩
    refine ⟨_, _, Emits.byte.mpr id, (Emits.map character).mpr ⟨fun i small c here => ?_, rfl⟩,
      rfl⟩
    refine plain c (List.mem_iff_getElem?.mpr ⟨i, ?_⟩)
    rw [List.getElem?_take_of_lt (List.mem_range.mp small), here]

/-- What the assembler has to take of a module. -/
structure Recordable (isSymbolChar : BitVec 8 → Bool) (name : Name) (module : VersionListModule) :
    Prop where
  symbol : isSymbol isSymbolChar (.moduleVersions name) = true
  count : module.versions.length < 2 ^ 32
  versions : ∀ pair ∈ module.versions, ∀ c ∈ pair.1.take 8, Plain c
  mod0Name : ∀ c ∈ module.mod0Name, Plain c

def mod0NameBytes (module : VersionListModule) : List (BitVec 8) :=
  if module.mod0Name = [] then [] else module.mod0Name ++ [0]

def recordBytes (module : VersionListModule) : List (BitVec 8) :=
  wordBytes (BitVec.ofNat 32 module.versions.length) ++ module.versions.flatMap versionBytes ++
    mod0NameBytes module

variable {name : Name} {module : VersionListModule} {bytes : List (BitVec 8)}

theorem emits_versionRecord : Emits isSymbolChar offset (module.versionRecord name) bytes ↔
    (isSymbol isSymbolChar (.moduleVersions name) = true ∧ module.versions.length < 2 ^ 32 ∧
      ∀ pair ∈ module.versions, ∀ c ∈ pair.1.take 8, Plain c) ∧
    bytes = wordBytes (BitVec.ofNat 32 module.versions.length) ++
      module.versions.flatMap versionBytes := by
  rw [VersionListModule.versionRecord, Emits.cons]
  constructor
  · rintro ⟨first, rest, here, there, rfl⟩
    obtain ⟨symbol, rfl⟩ := Emits.label.mp here
    obtain ⟨count, versions, counted, listed, rfl⟩ := Emits.cons.mp there
    obtain ⟨value, read, rfl⟩ := Emits.word.mp counted
    obtain ⟨plain, rfl⟩ := (Emits.flatMap fun pair bytes => emits_version).mp listed
    rw [number_hexLiteral, Option.ite_none_right_eq_some] at read
    obtain ⟨small, read⟩ := read
    obtain rfl := Option.some.inj read
    exact ⟨⟨symbol, small, plain⟩, rfl⟩
  · rintro ⟨⟨symbol, small, plain⟩, rfl⟩
    have count : number 32 (hexLiteral module.versions.length) =
        some (BitVec.ofNat 32 module.versions.length) := by rw [number_hexLiteral, if_pos small]
    have versions : Emits isSymbolChar offset (module.versions.flatMap VersionListModule.version)
        (module.versions.flatMap versionBytes) :=
      (Emits.flatMap fun pair bytes => emits_version).mpr ⟨plain, rfl⟩
    exact ⟨[], _, Emits.label.mpr ⟨symbol, rfl⟩,
      Emits.cons.mpr ⟨_, _, Emits.word.mpr ⟨_, count, rfl⟩, versions, rfl⟩, rfl⟩

theorem emits_nameRecord : Emits isSymbolChar offset (module.nameRecord name) bytes ↔
    (module.mod0Name ≠ [] → isSymbol isSymbolChar (.moduleNames name) = true) ∧
      (∀ c ∈ module.mod0Name, Plain c) ∧ bytes = mod0NameBytes module := by
  rw [VersionListModule.nameRecord, mod0NameBytes]
  by_cases unnamed : module.mod0Name = []
  · rw [if_pos unnamed, if_pos unnamed, unnamed]
    simpa using Emits.nil
  · rw [if_neg unnamed, if_neg unnamed, Emits.cons]
    have character : ∀ c bytes, Emits isSymbolChar offset [.ascii [c]] bytes ↔
        Plain c ∧ bytes = [c] := fun c bytes => Emits.ascii.trans string_singleton
    have end_ : ∀ bytes, Emits isSymbolChar offset [VersionListModule.nul] bytes ↔ bytes = [0] :=
      fun bytes => Emits.ascii.trans (by simp [string, eq_comm])
    constructor
    · rintro ⟨first, rest, here, there, rfl⟩
      obtain ⟨symbol, rfl⟩ := Emits.label.mp here
      obtain ⟨text, last, written, closed, rfl⟩ := Emits.append.mp there
      obtain ⟨plain, rfl⟩ := (Emits.map character).mp written
      obtain rfl := (end_ last).mp closed
      exact ⟨fun _ => symbol, plain, by rw [List.map_id']; rfl⟩
    · rintro ⟨symbol, plain, rfl⟩
      refine ⟨[], _, Emits.label.mpr ⟨symbol unnamed, rfl⟩, Emits.append.mpr ⟨_, [0],
        (Emits.map character).mpr ⟨plain, rfl⟩, (end_ _).mpr rfl, rfl⟩, by rw [List.map_id']; rfl⟩

theorem emits_record :
    Emits isSymbolChar offset (module.versionRecord name ++ module.nameRecord name) bytes ↔
      Recordable isSymbolChar name module ∧ bytes = recordBytes module := by
  rw [Emits.append]
  constructor
  · rintro ⟨before, after, here, there, rfl⟩
    obtain ⟨⟨symbol, count, versions⟩, rfl⟩ := emits_versionRecord.mp here
    obtain ⟨-, mod0Name, rfl⟩ := emits_nameRecord.mp there
    exact ⟨⟨symbol, count, versions, mod0Name⟩, rfl⟩
  · rintro ⟨⟨symbol, count, versions, mod0Name⟩, rfl⟩
    exact ⟨_, _, emits_versionRecord.mpr ⟨⟨symbol, count, versions⟩, rfl⟩,
      emits_nameRecord.mpr ⟨fun _ => symbol, mod0Name, rfl⟩, rfl⟩

/-! ## Words -/

/-- The second word of a module whose name is at some offset. -/
def NameWord (module : VersionListModule) (nameAt : ℕ) (word : U32) : Prop :=
  if module.index ≠ -1 then number 32 (toHexString (module.index ||| 1#32 <<< 16).toNat) = some word
  else if module.mod0Name = [] then word = 0
  else nameAt < 2 ^ 32 ∧ word = BitVec.ofNat 32 nameAt

/-- The first word of a module whose versions are at some offset. -/
def versionsWordOf (module : VersionListModule) (versionsAt : ℕ) : U32 :=
  if module.versions = [] then 0 else BitVec.ofNat 32 versionsAt

theorem emits_zero :
    Emits isSymbolChar offset [.word (hexLiteral 0)] bytes ↔ bytes = wordBytes 0 := by
  have zero : number 32 (hexLiteral 0) = some 0 := by
    rw [number_hexLiteral, if_pos (by decide)]
    rfl
  rw [Emits.word, zero]
  constructor
  · rintro ⟨value, read, rfl⟩
    rw [Option.some.inj read]
  · rintro rfl
    exact ⟨0, rfl, rfl⟩

section Words

variable {at_ : ℕ} (base : offset .gVersions = some 0)
include base

theorem emits_difference {symbol : TableSymbol} (valid : isSymbol isSymbolChar symbol = true)
    (there : offset symbol = some at_) :
    Emits isSymbolChar offset [.difference symbol .gVersions] bytes ↔
      at_ < 2 ^ 32 ∧ bytes = wordBytes (BitVec.ofNat 32 at_) := by
  have distance : ((at_ : ℤ) - (0 : ℕ)) = at_ := by omega
  have encoded : (Fragment.difference symbol .gVersions).encode offset =
      Machine.distanceBytes at_ := by
    rw [Fragment.encode, there, base, Option.bind_eq_bind, Option.bind_some, Option.bind_some,
      distance]
  rw [Emits.difference, and_iff_right ⟨valid, rfl⟩, encoded, Machine.distanceBytes_eq_some,
    BitVec.ofInt_natCast]
  have fits : (-2 ^ 31 ≤ (at_ : ℤ) ∧ (at_ : ℤ) < 2 ^ 32) ↔ at_ < 2 ^ 32 := by omega
  rw [fits]

theorem emits_versionsWord (valid : isSymbol isSymbolChar (.moduleVersions name) = true)
    (there : offset (.moduleVersions name) = some at_) :
    Emits isSymbolChar offset [module.versionsWord name] bytes ↔
      (module.versions ≠ [] → at_ < 2 ^ 32) ∧ bytes = wordBytes (versionsWordOf module at_) := by
  rw [VersionListModule.versionsWord, versionsWordOf]
  by_cases none : module.versions = []
  · rw [if_pos none, if_pos none, emits_zero, and_iff_right fun some => absurd none some]
  · rw [if_neg none, if_neg none, emits_difference base valid there, imp_iff_right none]

theorem emits_nameWord (valid : isSymbol isSymbolChar (.moduleNames name) = true)
    (there : module.mod0Name ≠ [] → offset (.moduleNames name) = some at_) :
    Emits isSymbolChar offset [module.nameWord name] bytes ↔
      ∃ word, NameWord module at_ word ∧ bytes = wordBytes word := by
  rw [VersionListModule.nameWord]
  simp only [NameWord]
  split
  · exact Emits.word
  · split
    · rw [emits_zero]
      constructor
      · rintro rfl
        exact ⟨0, rfl, rfl⟩
      · rintro ⟨word, rfl, rfl⟩
        rfl
    · case isFalse named =>
      rw [emits_difference base valid (there named)]
      constructor
      · rintro ⟨small, rfl⟩
        exact ⟨_, ⟨small, rfl⟩, rfl⟩
      · rintro ⟨word, ⟨small, rfl⟩, rfl⟩
        exact ⟨small, rfl⟩

end Words

end Hakkun.Sail
