import Hakkun.Machine.Core.Run
import Hakkun.Math.Insertion
import Hakkun.Model.Container.Map
import Mathlib.Data.List.Pairwise
import Mathlib.Logic.Function.Basic

/-! # Finite maps and sets

The mathematical map or set is what the entries associate with each key. An operation on a key
agrees with it as long as no other stored key has the same hash; the entries then stay strictly
ordered by their hashes, which is what the binary search needs.
-/

namespace Hakkun.Container

open Machine

section Search

variable {T : Type} {getValue : T → U64} {entries : List T}

/-- Entries in the strict order of their hashes. -/
def Keyed (getValue : T → U64) (entries : List T) : Prop :=
  entries.Pairwise fun first second => (getValue first).toNat < (getValue second).toNat

theorem keyed_iff_map : Keyed getValue entries ↔
    (entries.map fun entry => (getValue entry).toNat).Pairwise (· < ·) :=
  List.pairwise_map.symm

/-- Entries with one hash are at one place. -/
theorem Keyed.index_eq (keyed : Keyed getValue entries) {i j : ℕ} {first second : T}
    (here : entries[i]? = some first) (there : entries[j]? = some second)
    (same : getValue first = getValue second) : i = j := by
  obtain ⟨boundi, rfl⟩ := List.getElem?_eq_some_iff.mp here
  obtain ⟨boundj, rfl⟩ := List.getElem?_eq_some_iff.mp there
  have equal := congrArg BitVec.toNat same
  rcases lt_trichotomy i j with before | equal | after
  · have := List.pairwise_iff_getElem.mp keyed i j boundi boundj before
    omega
  · exact equal
  · have := List.pairwise_iff_getElem.mp keyed j i boundj boundi after
    omega

/-- The search finds the entry of a hash, or the place where one belongs. -/
theorem binarySearch_cases (keyed : Keyed getValue entries) (short : entries.length ≤ 2 ^ 30)
    (value : U64) :
    (∃ (index : ℕ) (entry : T), entries[index]? = some entry ∧ getValue entry = value ∧
      ∀ findBetween, binarySearch entries getValue value findBetween = some (index : ℤ)) ∨
    ((∀ entry ∈ entries, getValue entry ≠ value) ∧ ∃ index ≤ entries.length,
      (∀ entry ∈ entries.take index, (getValue entry).toNat < value.toNat) ∧
      (∀ entry ∈ entries.drop index, value.toNat < (getValue entry).toNat) ∧
      ∀ findBetween, binarySearch entries getValue value findBetween =
        some (if findBetween then (index : ℤ) else -1)) := by
  have ascending := (keyed_iff_map.mp keyed).imp le_of_lt
  have reads : (fun index : ℕ => entries[index]?.map fun entry => (getValue entry).toNat) =
      ((entries.map fun entry => (getValue entry).toNat)[·]?) := by
    funext index
    rw [List.getElem?_map]
  have width : (entries.map fun entry => (getValue entry).toNat).length = entries.length :=
    List.length_map ..
  have search (findBetween : Bool) : binarySearch entries getValue value findBetween =
      Util.binarySearch ((entries.map fun entry => (getValue entry).toNat)[·]?) 0
        (Util.toS32 ((entries.map fun entry => (getValue entry).toNat).length - 1)) value.toNat
        findBetween := by
    rw [binarySearch, reads, width]
  by_cases member : value.toNat ∈ entries.map fun entry => (getValue entry).toNat
  · left
    obtain ⟨index, here, found⟩ := Util.binarySearch_of_mem ascending (width ▸ short) member true
    rw [List.getElem?_map, Option.map_eq_some_iff] at here
    obtain ⟨entry, here, same⟩ := here
    refine ⟨index, entry, here, BitVec.eq_of_toNat_eq same, ?_⟩
    rintro (_ | _)
    · obtain ⟨other, there, found'⟩ := Util.binarySearch_of_mem ascending (width ▸ short) member false
      rw [List.getElem?_map, Option.map_eq_some_iff] at there
      obtain ⟨entry', there, same'⟩ := there
      have unique : other = index :=
        keyed.index_eq there here (BitVec.eq_of_toNat_eq (same'.trans same.symm))
      rw [search, found', unique]
    · rw [search, found]
  · right
    have absent : ∀ entry ∈ entries, getValue entry ≠ value := by
      intro entry there same
      exact member (List.mem_map.mpr ⟨entry, there, congrArg BitVec.toNat same⟩)
    obtain ⟨index, bound, below, above, found⟩ :=
      Util.binarySearch_of_not_mem ascending (width ▸ short) member
    refine ⟨absent, index, width ▸ bound, ?_, ?_, fun findBetween => ?_⟩
    · intro entry there
      exact below _ (List.map_take ▸ List.mem_map_of_mem there)
    · intro entry there
      exact above _ (List.map_drop ▸ List.mem_map_of_mem there)
    · rw [search, found]

/-- A new entry where its hash belongs keeps the order. -/
theorem Keyed.insertIdx (keyed : Keyed getValue entries) {index : ℕ} {entry : T}
    (bound : index ≤ entries.length)
    (below : ∀ other ∈ entries.take index, (getValue other).toNat < (getValue entry).toNat)
    (above : ∀ other ∈ entries.drop index, (getValue entry).toNat < (getValue other).toNat) :
    Keyed getValue (entries.insertIdx index entry) :=
  Math.pairwise_insertIdx keyed bound below above

/-- Entries with one hash are one entry. -/
theorem Keyed.eq_of_same (keyed : Keyed getValue entries) {first second : T}
    (here : first ∈ entries) (there : second ∈ entries)
    (same : getValue first = getValue second) : first = second := by
  obtain ⟨i, here⟩ := List.getElem?_of_mem here
  obtain ⟨j, there⟩ := List.getElem?_of_mem there
  obtain rfl := keyed.index_eq here there same
  exact Option.some.inj (here.symm.trans there)

/-- What is left when one entry is taken out. -/
theorem Keyed.mem_eraseIdx (keyed : Keyed getValue entries) {index : ℕ} {entry other : T}
    (here : entries[index]? = some entry) :
    other ∈ entries.eraseIdx index ↔ other ∈ entries ∧ getValue other ≠ getValue entry := by
  rw [List.mem_eraseIdx_iff_getElem?]
  constructor
  · rintro ⟨place, different, there⟩
    exact ⟨List.mem_of_getElem? there, fun same => different (keyed.index_eq there here same)⟩
  · rintro ⟨member, different⟩
    obtain ⟨place, there⟩ := List.getElem?_of_mem member
    refine ⟨place, ?_, there⟩
    rintro rfl
    rw [here] at there
    exact different (congrArg getValue (Option.some.inj there)).symm

end Search

namespace Map

variable {K V : Type} [DecidableEq K]

/-- The mathematical map that entries stand for. -/
def lookup (entries : List (K × V)) (key : K) : Option V :=
  (entries.find? fun entry => entry.1 = key).map Prod.snd

variable [Inhabited V]

/-- What a mathematical map returns for a call, and the map after it. -/
inductive Specified : (K → Option V) → Call K V → Outcome K V → (K → Option V) → Prop
  | insert {map : K → Option V} {key : K} {value : V} (absent : map key = none) :
    Specified map (.insert key value) .done (Function.update map key (some value))
  | index_present {map : K → Option V} {key : K} {value : V} (present : map key = some value) :
    Specified map (.index key) (.value (some value)) map
  | index_absent {map : K → Option V} {key : K} (absent : map key = none) :
    Specified map (.index key) (.value (some default)) (Function.update map key (some default))
  | assign {map : K → Option V} {key : K} {value : V} :
    Specified map (.assign key value) .done (Function.update map key (some value))
  | find {map : K → Option V} {key : K} : Specified map (.find key) (.value (map key)) map
  | at_ {map : K → Option V} {key : K} {value : V} (present : map key = some value) :
    Specified map (.at_ key) (.value (some value)) map
  | remove {map : K → Option V} {key : K} :
    Specified map (.remove key) (.removed ((map key).map fun value => (key, value)))
      (Function.update map key none)
  | forEach {map : K → Option V} {pairs : List (K × V)} (once : (pairs.map Prod.fst).Nodup)
    (all : ∀ key value, (key, value) ∈ pairs ↔ map key = some value) :
    Specified map .forEach (.visited pairs) map

variable (hash : K → U64)

/-- A call returns and leaves what the mathematical map does, and aborts only where that has no
result. -/
def Correct (entries : List (K × V)) (label : Call K V) : Prop :=
  match call hash entries label with
  | some (outcome, after) => Specified (lookup entries) label outcome (lookup after)
  | none => ∀ outcome after, ¬ Specified (lookup entries) label outcome after

/-- The key that a call is about. -/
def Call.key? : Call K V → Option K
  | .insert key _ | .index key | .assign key _ | .find key | .at_ key | .remove key => some key
  | .forEach => none

/-- No other stored key has the hash of the call's key, and the indices stay within the `s32`
arithmetic of the search. -/
def Isolated (entries : List (K × V)) (label : Call K V) : Prop :=
  entries.length ≤ 2 ^ 30 ∧
    ∀ key ∈ label.key?, ∀ entry ∈ entries, hash entry.1 = hash key → entry.1 = key

instance (entries : List (K × V)) (label : Call K V) : Decidable (Isolated hash entries label) :=
  inferInstanceAs (Decidable (_ ∧ _))

section Lookup

omit [Inhabited V]

variable {hash} {entries : List (K × V)}

/-- Pairs in the strict order of the hashes of their keys. -/
def Ordered (hash : K → U64) (entries : List (K × V)) : Prop :=
  Keyed (fun pair => hash pair.1) entries

theorem lookup_eq_none {key : K} : lookup entries key = none ↔ ∀ entry ∈ entries, entry.1 ≠ key := by
  simp [lookup]

theorem lookup_eq_some (ordered : Ordered hash entries) {key : K} {value : V} :
    lookup entries key = some value ↔ (key, value) ∈ entries := by
  rw [lookup, Option.map_eq_some_iff]
  constructor
  · rintro ⟨⟨key', value'⟩, found, rfl⟩
    obtain rfl : key' = key := of_decide_eq_true (List.find?_some found :)
    exact List.mem_of_find?_eq_some found
  · intro member
    cases found : entries.find? fun entry => entry.1 = key with
    | none => exact absurd (List.find?_eq_none.mp found _ member) (by simp)
    | some entry =>
      have same : entry.1 = key := of_decide_eq_true (List.find?_some found :)
      have equal := ordered.eq_of_same (List.mem_of_find?_eq_some found) member (congrArg hash same)
      exact ⟨entry, rfl, congrArg Prod.snd equal⟩

/-- Entries stand for the map that they have the pairs of. -/
theorem lookup_eq (ordered : Ordered hash entries) {map : K → Option V}
    (pairs : ∀ key value, (key, value) ∈ entries ↔ map key = some value) : lookup entries = map := by
  funext key
  refine Option.ext fun value => ?_
  rw [lookup_eq_some ordered, pairs]

theorem lookup_of_getElem? (ordered : Ordered hash entries) {key : K} {value : V} {index : ℕ}
    (here : entries[index]? = some (key, value)) : lookup entries key = some value :=
  (lookup_eq_some ordered).mpr (List.mem_of_getElem? here)

/-- A key that no other key shares its hash with is found where it is, or is not there. -/
theorem find_cases (ordered : Ordered hash entries) {key : K} (short : entries.length ≤ 2 ^ 30)
    (alone : ∀ entry ∈ entries, hash entry.1 = hash key → entry.1 = key) :
    (∃ (index : ℕ) (value : V), entries[index]? = some (key, value) ∧
      lookup entries key = some value ∧ find hash entries key = some (some index) ∧
      (∀ findBetween, binarySearch hash entries key findBetween = some (index : ℤ))) ∨
    (lookup entries key = none ∧ find hash entries key = some none ∧
      (∀ entry ∈ entries, hash entry.1 ≠ hash key) ∧ ∃ index ≤ entries.length,
        (∀ value, Ordered hash (entries.insertIdx index (key, value))) ∧
        ∀ findBetween, binarySearch hash entries key findBetween =
          some (if findBetween then (index : ℤ) else -1)) := by
  rcases binarySearch_cases ordered short (hash key) with
    ⟨index, ⟨key', value⟩, here, same, found⟩ | ⟨absent, index, bound, below, above, found⟩
  · left
    obtain rfl : key' = key := alone _ (List.mem_of_getElem? here) same
    refine ⟨index, value, here, lookup_of_getElem? ordered here, ?_, found⟩
    have bound := (List.getElem?_eq_some_iff.mp here).1
    have search : binarySearch hash entries key' false = some (index : ℤ) := found false
    have real : ¬ (index : ℤ) = -1 := by omega
    simp [find, search, real, checkAt, bound]
  · right
    refine ⟨lookup_eq_none.mpr ?_, ?_, absent, index, bound, fun value => ?_, found⟩
    · intro entry there same
      exact absent entry there (congrArg hash same)
    · have search : binarySearch hash entries key false = some (-1) := found false
      simp [find, search]
    · exact Keyed.insertIdx ordered bound below above

/-- The entries after the insertion of a new key. -/
theorem lookup_insertIdx (ordered : Ordered hash entries) {key : K} {value : V} {index : ℕ}
    (after : Ordered hash (entries.insertIdx index (key, value))) (bound : index ≤ entries.length)
    (absent : lookup entries key = none) :
    lookup (entries.insertIdx index (key, value)) =
      Function.update (lookup entries) key (some value) := by
  refine lookup_eq after fun key' value' => ?_
  rw [List.mem_insertIdx bound, Prod.mk.injEq, ← lookup_eq_some ordered]
  by_cases same : key' = key
  · subst same
    simp [absent, eq_comm]
  · rw [Function.update_of_ne same]
    simp [same]

/-- The entries after the removal of a key. -/
theorem lookup_eraseIdx (ordered : Ordered hash entries) {key : K} {value : V} {index : ℕ}
    (here : entries[index]? = some (key, value))
    (alone : ∀ entry ∈ entries, hash entry.1 = hash key → entry.1 = key) :
    lookup (entries.eraseIdx index) = Function.update (lookup entries) key none := by
  have after : Ordered hash (entries.eraseIdx index) := List.Pairwise.eraseIdx index ordered
  refine lookup_eq after fun key' value' => ?_
  rw [Keyed.mem_eraseIdx ordered here, ← lookup_eq_some ordered]
  by_cases same : key' = key
  · subst same
    simp
  · rw [Function.update_of_ne same]
    refine and_iff_left_of_imp fun present equal => same ?_
    exact alone _ ((lookup_eq_some ordered).mp present) equal

omit [DecidableEq K] in
theorem getElem?_store (index place : ℕ) (value : V) : (store entries index value)[place]? =
    entries[place]?.map fun pair => if index = place then (pair.1, value) else pair :=
  List.getElem?_modify ..

omit [DecidableEq K] in
/-- A store to the value of a pair leaves the order. -/
theorem Ordered.store (ordered : Ordered hash entries) (index : ℕ) (value : V) :
    Ordered hash (store entries index value) := by
  have keys : (Map.store entries index value).map (fun pair => (hash pair.1).toNat) =
      entries.map fun pair => (hash pair.1).toNat := by
    refine List.ext_getElem? fun place => ?_
    rw [List.getElem?_map, List.getElem?_map, getElem?_store, Option.map_map]
    split_ifs <;> rfl
  exact keyed_iff_map.mpr (keys ▸ keyed_iff_map.mp ordered)

/-- The entries after a store to the value of a key. -/
theorem lookup_store (ordered : Ordered hash entries) {key : K} {old : V} {index : ℕ}
    (here : entries[index]? = some (key, old)) (value : V) :
    lookup (store entries index value) = Function.update (lookup entries) key (some value) := by
  refine lookup_eq (ordered.store index value) fun key' value' => ?_
  have member : (key', value') ∈ store entries index value ↔
      (key', value') = (key, value) ∨ ((key', value') ∈ entries ∧ key' ≠ key) := by
    simp only [List.mem_iff_getElem?, getElem?_store]
    constructor
    · rintro ⟨place, there⟩
      by_cases same : index = place
      · subst same
        simp only [here, if_true, Option.map_some, Option.some.injEq] at there
        exact .inl there.symm
      · simp only [if_neg same, Option.map_id'] at there
        refine .inr ⟨⟨place, there⟩, ?_⟩
        rintro rfl
        exact same (ordered.index_eq here there rfl)
    · rintro (equal | ⟨⟨place, there⟩, different⟩)
      · exact ⟨index, by simp [here, equal]⟩
      · refine ⟨place, ?_⟩
        have elsewhere : index ≠ place := by
          rintro rfl
          rw [here] at there
          exact different (congrArg Prod.fst (Option.some.inj there)).symm
        simp [elsewhere, there]
  rw [member, ← lookup_eq_some ordered, Prod.mk.injEq]
  by_cases same : key' = key
  · subst same
    simp [eq_comm]
  · rw [Function.update_of_ne same]
    simp [same]

end Lookup

variable {hash} {entries : List (K × V)}

omit [DecidableEq K] [Inhabited V] in
theorem insert_of_found {key : K} {index : ℕ} (value : V)
    (found : ∀ findBetween, binarySearch hash entries key findBetween = some (index : ℤ)) :
    insert hash entries key value = none := by
  have real : ¬ (index : ℤ) = -1 := by omega
  simp [insert, checkInsert, found, real]

omit [DecidableEq K] [Inhabited V] in
theorem insert_of_absent {key : K} {index : ℕ} (value : V) (bound : index ≤ entries.length)
    (found : ∀ findBetween, binarySearch hash entries key findBetween =
      some (if findBetween then (index : ℤ) else -1)) :
    insert hash entries key value = some (index, entries.insertIdx index (key, value)) := by
  simp [insert, checkInsert, found, vecInsert, bound]

omit [DecidableEq K] [Inhabited V] in
theorem deref_of_getElem? {key : K} {value : V} {index : ℕ}
    (here : entries[index]? = some (key, value)) : deref entries index = some value := by
  rw [deref, here, Option.map_some]

omit [DecidableEq K] [Inhabited V] in
theorem getElem?_insertIdx_self {pair : K × V} {index : ℕ} (bound : index ≤ entries.length) :
    (entries.insertIdx index pair)[index]? = some pair := by
  rw [List.getElem?_insertIdx_self, if_pos bound]

/-- What a call on an isolated key returns and leaves, and that it keeps the order. -/
theorem correct_of_isolated (ordered : Ordered hash entries) {label : Call K V}
    (isolated : Isolated hash entries label) :
    Correct hash entries label ∧ ∀ after, step hash entries label = some after → Ordered hash after := by
  obtain ⟨short, alone⟩ := isolated
  cases label with
  | insert key value =>
    rcases find_cases ordered short (alone key rfl) with
      ⟨index, old, here, present, -, found⟩ | ⟨absent, -, -, index, bound, after, found⟩
    · simp only [Correct, step, call, insert_of_found value found, Option.bind_eq_bind,
        Option.bind_none, Option.map_none, reduceCtorEq, false_implies, implies_true, and_true]
      intro outcome map specified
      cases specified with
      | insert absent =>
        rw [present] at absent
        cases absent
    · simp only [Correct, step, call, insert_of_absent value bound found, Option.bind_eq_bind,
        Option.bind_some, Option.pure_def, Option.map_some, Option.some.injEq, forall_eq']
      rw [lookup_insertIdx ordered (after value) bound absent]
      exact ⟨.insert absent, after value⟩
  | index key =>
    rcases find_cases ordered short (alone key rfl) with
      ⟨index, old, here, present, searched, -⟩ | ⟨absent, searched, -, index, bound, after, found⟩
    · simp only [Correct, step, call, Map.index, searched, Option.bind_eq_bind,
        Option.bind_some, Option.pure_def, Option.map_some, Option.some.injEq, forall_eq',
        deref_of_getElem? here]
      exact ⟨.index_present present, ordered⟩
    · simp only [Correct, step, call, Map.index, searched, insert_of_absent default bound found,
        Option.bind_eq_bind, Option.bind_some, Option.pure_def, Option.map_some,
        Option.some.injEq, forall_eq', deref_of_getElem? (getElem?_insertIdx_self bound)]
      rw [lookup_insertIdx ordered (after default) bound absent]
      exact ⟨.index_absent absent, after default⟩
  | assign key value =>
    rcases find_cases ordered short (alone key rfl) with
      ⟨index, old, here, present, searched, -⟩ | ⟨absent, searched, -, index, bound, after, found⟩
    · simp only [Correct, step, call, Map.index, searched, Option.bind_eq_bind,
        Option.bind_some, Option.pure_def, Option.map_some, Option.some.injEq, forall_eq']
      rw [lookup_store ordered here]
      exact ⟨.assign, ordered.store index value⟩
    · simp only [Correct, step, call, Map.index, searched, insert_of_absent default bound found,
        Option.bind_eq_bind, Option.bind_some, Option.pure_def, Option.map_some,
        Option.some.injEq, forall_eq']
      rw [lookup_store (after default) (getElem?_insertIdx_self bound),
        lookup_insertIdx ordered (after default) bound absent, Function.update_idem]
      exact ⟨.assign, (after default).store index value⟩
  | find key =>
    rcases find_cases ordered short (alone key rfl) with
      ⟨index, old, here, present, searched, -⟩ | ⟨absent, searched, -⟩
    · simp only [Correct, step, call, searched, Option.bind_eq_bind, Option.bind_some,
        Option.pure_def, Option.map_some, Option.some.injEq, forall_eq', deref_of_getElem? here]
      exact ⟨present ▸ .find, ordered⟩
    · simp only [Correct, step, call, searched, Option.bind_eq_bind, Option.bind_some,
        Option.bind_none, Option.pure_def, Option.map_some, Option.some.injEq, forall_eq']
      exact ⟨absent ▸ .find, ordered⟩
  | at_ key =>
    rcases find_cases ordered short (alone key rfl) with
      ⟨index, old, here, present, searched, -⟩ | ⟨absent, searched, -⟩
    · simp only [Correct, step, call, Map.at_, searched, Option.bind_eq_bind, Option.bind_some,
        Option.pure_def, Option.map_some, Option.some.injEq, forall_eq', deref_of_getElem? here]
      exact ⟨.at_ present, ordered⟩
    · simp only [Correct, step, call, Map.at_, searched, Option.bind_eq_bind, Option.bind_some,
        Option.bind_none, Option.map_none, reduceCtorEq, false_implies, implies_true, and_true]
      intro outcome map specified
      cases specified with
      | at_ present =>
        rw [absent] at present
        cases present
  | remove key =>
    rcases find_cases ordered short (alone key rfl) with
      ⟨index, old, here, present, -, found⟩ | ⟨absent, -, -, index, bound, -, found⟩
    · have real : ¬ (index : ℤ) = -1 := by omega
      have bound := (List.getElem?_eq_some_iff.mp here).1
      have removed : remove hash entries key = some (some (key, old), entries.eraseIdx index) := by
        simp only [remove, found, real, checkAt, Int.toNat_natCast, bound, here, if_true,
          if_false, Option.bind_eq_bind, Option.bind_some, Option.pure_def]
      simp only [Correct, step, call, removed, Option.bind_eq_bind, Option.bind_some,
        Option.pure_def, Option.map_some, Option.some.injEq, forall_eq']
      rw [lookup_eraseIdx ordered here (alone key rfl)]
      have specified : Specified (lookup entries) (.remove key) _ _ := .remove
      rw [present, Option.map_some] at specified
      exact ⟨specified, List.Pairwise.eraseIdx index ordered⟩
    · have kept : remove hash entries key = some (none, entries) := by
        simp [remove, found]
      simp only [Correct, step, call, kept, Option.bind_eq_bind, Option.bind_some,
        Option.pure_def, Option.map_some, Option.some.injEq, forall_eq']
      have specified : Specified (lookup entries) (.remove key) _ _ := .remove
      rw [absent, Option.map_none, ← absent, Function.update_eq_self] at specified
      exact ⟨specified, ordered⟩
  | forEach =>
    refine ⟨.forEach ?_ fun key value => (lookup_eq_some ordered).symm, ?_⟩
    · refine List.pairwise_map.mpr (List.Pairwise.imp ?_ ordered)
      intro first second before same
      exact before.ne (congrArg (fun key => (hash key).toNat) same)
    · rintro _ ⟨rfl⟩
      exact ordered

end Map

namespace Set

variable {T : Type} [DecidableEq T]

/-- The mathematical set that entries stand for. -/
def members (entries : List (U64 × T)) (value : T) : Prop := value ∈ entries.map Prod.snd

instance (entries : List (U64 × T)) (value : T) : Decidable (members entries value) :=
  inferInstanceAs (Decidable (value ∈ entries.map Prod.snd))

/-- What a mathematical set returns for a call, and the set after it. -/
inductive Specified : (T → Prop) → Call T → Outcome T → (T → Prop) → Prop
  | insert_absent {set : T → Prop} {value : T} (absent : ¬ set value) :
    Specified set (.insert value) (.value (some value)) fun other => other = value ∨ set other
  | insert_present {set : T → Prop} {value : T} (present : set value) :
    Specified set (.insert value) (.value none) set
  | find_present {set : T → Prop} {key : T} (present : set key) :
    Specified set (.find key) (.value (some key)) set
  | find_absent {set : T → Prop} {key : T} (absent : ¬ set key) :
    Specified set (.find key) (.value none) set
  | at_ {set : T → Prop} {key : T} (present : set key) :
    Specified set (.at_ key) (.value (some key)) set
  | remove_present {set : T → Prop} {key : T} (present : set key) :
    Specified set (.remove key) (.value (some key)) fun other => set other ∧ other ≠ key
  | remove_absent {set : T → Prop} {key : T} (absent : ¬ set key) :
    Specified set (.remove key) (.value none) set
  | forEach {set : T → Prop} {values : List T} (once : values.Nodup)
    (all : ∀ value, value ∈ values ↔ set value) : Specified set .forEach (.visited values) set

variable (hash : T → U64)

/-- A call returns and leaves what the mathematical set does, and aborts only where that has no
result. -/
def Correct (entries : List (U64 × T)) (label : Call T) : Prop :=
  match call hash entries label with
  | some (outcome, after) => Specified (members entries) label outcome (members after)
  | none => ∀ outcome after, ¬ Specified (members entries) label outcome after

/-- The value that a call is about. -/
def Call.key? : Call T → Option T
  | .insert key | .find key | .at_ key | .remove key => some key
  | .forEach => none

/-- No other stored value has the hash of the call's, and the indices stay within the `s32`
arithmetic of the search. -/
def Isolated (entries : List (U64 × T)) (label : Call T) : Prop :=
  entries.length ≤ 2 ^ 30 ∧
    ∀ key ∈ label.key?, ∀ entry ∈ entries, hash entry.2 = hash key → entry.2 = key

instance (entries : List (U64 × T)) (label : Call T) : Decidable (Isolated hash entries label) :=
  inferInstanceAs (Decidable (_ ∧ _))

/-- Values under their hashes, in the strict order of these. -/
structure Ordered (entries : List (U64 × T)) : Prop where
  keyed : Keyed Prod.fst entries
  hashed : ∀ entry ∈ entries, entry.1 = hash entry.2

variable {hash} {entries : List (U64 × T)}

omit [DecidableEq T] in
theorem members_iff {value : T} : members entries value ↔ ∃ entry ∈ entries, entry.2 = value :=
  List.mem_map

omit [DecidableEq T] in
/-- A value that no other value shares its hash with is found where it is, or is not there. -/
theorem find_cases (ordered : Ordered hash entries) {key : T} (short : entries.length ≤ 2 ^ 30)
    (alone : ∀ entry ∈ entries, hash entry.2 = hash key → entry.2 = key) :
    (∃ index : ℕ, entries[index]? = some (hash key, key) ∧ members entries key ∧
      find hash entries key = some (some index) ∧
      ∀ findBetween, binarySearch hash entries key findBetween = some (index : ℤ)) ∨
    (¬ members entries key ∧ find hash entries key = some none ∧ ∃ index ≤ entries.length,
      Ordered hash (entries.insertIdx index (hash key, key)) ∧
      ∀ findBetween, binarySearch hash entries key findBetween =
        some (if findBetween then (index : ℤ) else -1)) := by
  rcases binarySearch_cases ordered.keyed short (hash key) with
    ⟨index, ⟨stored, key'⟩, here, same, found⟩ | ⟨absent, index, bound, below, above, found⟩
  · left
    have member := List.mem_of_getElem? here
    obtain rfl : stored = hash key := same
    obtain rfl : key' = key := alone _ member (ordered.hashed _ member).symm
    refine ⟨index, here, members_iff.mpr ⟨_, member, rfl⟩, ?_, found⟩
    have bound := (List.getElem?_eq_some_iff.mp here).1
    have search : binarySearch hash entries key' false = some (index : ℤ) := found false
    have real : ¬ (index : ℤ) = -1 := by omega
    simp [find, search, real, checkAt, bound]
  · right
    refine ⟨?_, ?_, index, bound, ⟨ordered.keyed.insertIdx bound below above, ?_⟩, found⟩
    · rintro member
      obtain ⟨entry, there, rfl⟩ := members_iff.mp member
      exact absent entry there (ordered.hashed entry there)
    · have search : binarySearch hash entries key false = some (-1) := found false
      simp [find, search]
    · intro entry there
      rcases (List.mem_insertIdx bound).mp there with rfl | there
      · rfl
      · exact ordered.hashed entry there

omit [DecidableEq T] in
/-- The members after the insertion of a value. -/
theorem members_insertIdx {index : ℕ} {stored : U64} {value : T} (bound : index ≤ entries.length) :
    members (entries.insertIdx index (stored, value)) =
      fun other => other = value ∨ members entries other := by
  funext other
  simp only [members_iff, List.mem_insertIdx bound, eq_iff_iff]
  constructor
  · rintro ⟨entry, rfl | there, rfl⟩
    · exact .inl rfl
    · exact .inr ⟨entry, there, rfl⟩
  · rintro (rfl | ⟨entry, there, rfl⟩)
    · exact ⟨_, .inl rfl, rfl⟩
    · exact ⟨entry, .inr there, rfl⟩

omit [DecidableEq T] in
/-- The members after the removal of a value. -/
theorem members_eraseIdx (ordered : Ordered hash entries) {key : T} {index : ℕ}
    (here : entries[index]? = some (hash key, key))
    (alone : ∀ entry ∈ entries, hash entry.2 = hash key → entry.2 = key) :
    members (entries.eraseIdx index) = fun other => members entries other ∧ other ≠ key := by
  funext other
  simp only [members_iff, ordered.keyed.mem_eraseIdx here, eq_iff_iff]
  constructor
  · rintro ⟨entry, ⟨there, different⟩, rfl⟩
    refine ⟨⟨entry, there, rfl⟩, fun same => different ?_⟩
    rw [ordered.hashed entry there, same]
  · rintro ⟨⟨entry, there, rfl⟩, different⟩
    refine ⟨entry, ⟨there, fun same => different ?_⟩, rfl⟩
    exact alone entry there (ordered.hashed entry there ▸ same)

omit [DecidableEq T] in
theorem Ordered.eraseIdx (ordered : Ordered hash entries) (index : ℕ) :
    Ordered hash (entries.eraseIdx index) where
  keyed := List.Pairwise.eraseIdx index ordered.keyed
  hashed entry there := ordered.hashed entry (List.mem_of_mem_eraseIdx there)

omit [DecidableEq T] in
theorem deref_of_getElem? {stored : U64} {value : T} {index : ℕ}
    (here : entries[index]? = some (stored, value)) : deref entries index = some value := by
  rw [deref, here, Option.map_some]

omit [DecidableEq T] in
/-- What a call on an isolated value returns and leaves, and that it keeps the order. -/
theorem correct_of_isolated (ordered : Ordered hash entries) {label : Call T}
    (isolated : Isolated hash entries label) :
    Correct hash entries label ∧ ∀ after, step hash entries label = some after → Ordered hash after := by
  obtain ⟨short, alone⟩ := isolated
  cases label with
  | insert value =>
    rcases find_cases ordered short (alone value rfl) with
      ⟨index, here, present, -, found⟩ | ⟨absent, -, index, bound, after, found⟩
    · have real : ¬ (index : ℤ) = -1 := by omega
      have kept : insert hash entries value = some (none, entries) := by
        simp [insert, checkCanInsert, found, real]
      simp only [Correct, step, call, kept, Option.bind_eq_bind, Option.bind_some,
        Option.bind_none, Option.pure_def, Option.map_some, Option.some.injEq, forall_eq']
      exact ⟨.insert_present present, ordered⟩
    · have placed : (entries.insertIdx index (hash value, value))[index]? =
          some (hash value, value) := by
        rw [List.getElem?_insertIdx_self, if_pos bound]
      have inserted : insert hash entries value =
          some (some index, entries.insertIdx index (hash value, value)) := by
        simp [insert, checkCanInsert, found, vecInsert, bound]
      simp only [Correct, step, call, inserted, Option.bind_eq_bind, Option.bind_some,
        Option.pure_def, Option.map_some, Option.some.injEq, forall_eq', deref_of_getElem? placed]
      rw [members_insertIdx bound]
      exact ⟨.insert_absent absent, after⟩
  | find key =>
    rcases find_cases ordered short (alone key rfl) with
      ⟨index, here, present, searched, -⟩ | ⟨absent, searched, -⟩
    · simp only [Correct, step, call, searched, Option.bind_eq_bind, Option.bind_some,
        Option.pure_def, Option.map_some, Option.some.injEq, forall_eq', deref_of_getElem? here]
      exact ⟨.find_present present, ordered⟩
    · simp only [Correct, step, call, searched, Option.bind_eq_bind, Option.bind_some,
        Option.bind_none, Option.pure_def, Option.map_some, Option.some.injEq, forall_eq']
      exact ⟨.find_absent absent, ordered⟩
  | at_ key =>
    rcases find_cases ordered short (alone key rfl) with
      ⟨index, here, present, searched, -⟩ | ⟨absent, searched, -⟩
    · simp only [Correct, step, call, Set.at_, searched, Option.bind_eq_bind, Option.bind_some,
        Option.pure_def, Option.map_some, Option.some.injEq, forall_eq', deref_of_getElem? here]
      exact ⟨.at_ present, ordered⟩
    · simp only [Correct, step, call, Set.at_, searched, Option.bind_eq_bind, Option.bind_some,
        Option.bind_none, Option.map_none, reduceCtorEq, false_implies, implies_true, and_true]
      intro outcome set specified
      cases specified with
      | at_ present => exact absent present
  | remove key =>
    rcases find_cases ordered short (alone key rfl) with
      ⟨index, here, present, -, found⟩ | ⟨absent, -, index, -, -, found⟩
    · have real : ¬ (index : ℤ) = -1 := by omega
      have bound := (List.getElem?_eq_some_iff.mp here).1
      have removed : remove hash entries key = some (some key, entries.eraseIdx index) := by
        simp only [remove, found, real, checkAt, Int.toNat_natCast, bound, here, if_true,
          if_false, Option.bind_eq_bind, Option.bind_some, Option.pure_def, Option.map_some]
      simp only [Correct, step, call, removed, Option.bind_eq_bind, Option.bind_some,
        Option.pure_def, Option.map_some, Option.some.injEq, forall_eq']
      rw [members_eraseIdx ordered here (alone key rfl)]
      exact ⟨.remove_present present, ordered.eraseIdx index⟩
    · have kept : remove hash entries key = some (none, entries) := by
        simp [remove, found]
      simp only [Correct, step, call, kept, Option.bind_eq_bind, Option.bind_some,
        Option.pure_def, Option.map_some, Option.some.injEq, forall_eq']
      exact ⟨.remove_absent absent, ordered⟩
  | forEach =>
    refine ⟨.forEach ?_ fun value => Iff.rfl, ?_⟩
    · refine List.pairwise_map.mpr (List.Pairwise.imp_of_mem ?_ ordered.keyed)
      intro first second here there before same
      rw [ordered.hashed first here, ordered.hashed second there, same] at before
      exact lt_irrefl _ before
    · rintro _ ⟨rfl⟩
      exact ordered

end Set

/-- Over every run from an empty map or set, each call on an isolated key agrees with the
mathematical map or set, which the entries stand for throughout. -/
theorem runMeets_correct {K V T : Type} [DecidableEq K] [Inhabited V] :
    (∀ (hash : K → U64) (path : List (Map.Call K V)),
      RunMeets (Map.step hash) (Map.Isolated hash) [] path →
        RunMeets (Map.step hash) (Map.Correct hash) [] path) ∧
    (∀ (hash : T → U64) (path : List (Set.Call T)),
      RunMeets (Set.step hash) (Set.Isolated hash) [] path →
        RunMeets (Set.step hash) (Set.Correct hash) [] path) := by
  constructor
  · intro hash path isolated
    exact runMeets_mono (Map.Ordered hash)
      (fun _ _ ordered meets => Map.correct_of_isolated ordered meets) List.Pairwise.nil isolated
  · intro hash path isolated
    exact runMeets_mono (Set.Ordered hash)
      (fun _ _ ordered meets => Set.correct_of_isolated ordered meets)
      ⟨List.Pairwise.nil, fun _ there => absurd there List.not_mem_nil⟩ isolated

/-- Keys that are their own hashes. -/
theorem runMeets_correct_identity :
    RunMeets (Map.step (BitVec.ofNat 64)) (Map.Correct (BitVec.ofNat 64)) []
      [.insert 4 40, .insert 2 20, .assign 3 30, .at_ 3, .remove 2, .find 2, .index 9, .forEach] ∧
    RunMeets (Set.step (BitVec.ofNat 64)) (Set.Correct (BitVec.ofNat 64)) []
      [.insert 4, .insert 2, .insert 4, .at_ 2, .remove 4, .find 4, .forEach] :=
  ⟨(runMeets_correct (K := ℕ) (V := ℕ) (T := ℕ)).1 _ _ (by decide),
    (runMeets_correct (K := ℕ) (V := ℕ) (T := ℕ)).2 _ _ (by decide)⟩

/-- With one hash for all keys, looking for an absent key finds another one. -/
theorem collision_not_correct : ¬ ∀ (hash : ℕ → U64) (path : List (Map.Call ℕ ℕ)),
    RunMeets (Map.step hash) (Map.Correct hash) [] path := by
  intro always
  have second := (always (fun _ => 0) [.insert 1 10, .find 2]).2 [(1, 10)] (by decide)
  have found : Map.Specified (Map.lookup [(1, 10)]) (.find 2) (.value (some 10)) _ := second.1
  have outcome : ∀ value after, Map.Specified (Map.lookup [(1, 10)]) (.find 2) (.value value) after →
      value = Map.lookup [(1, 10)] 2 := by
    rintro value after ⟨⟩
    rfl
  exact absurd (outcome _ _ found) (by decide)

end Hakkun.Container
