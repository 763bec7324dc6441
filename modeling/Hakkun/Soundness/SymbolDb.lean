import Hakkun.Model.Sail.FakeLib
import Mathlib.Data.List.Infix

/-! # What the symbol database contains

The emitted entries are strictly ascending by hash, and each of them holds all and only the
definitions with its hash, in the order of the sorted list.
-/

namespace Hakkun.Sail

variable {symbols sorted rest : List Symbol} {cleared : List U32} {entries : List DbEntry}

/-- The results of a `mapM` that succeeds are those of the single elements. -/
theorem forall₂_of_mapM {A B : Type} {f : A → Option B} {given : List A} {results : List B}
    (done : given.mapM f = some results) : List.Forall₂ (fun a b => f a = some b) given results := by
  induction given generalizing results with
  | nil =>
    obtain rfl := Option.some.inj done
    exact .nil
  | cons a given ih =>
    simp only [List.mapM_cons, Option.bind_eq_bind, Option.bind_eq_some_iff] at done
    obtain ⟨b, here, results', others, done⟩ := done
    obtain rfl := Option.some.inj done
    exact .cons here (ih others)

theorem exists_of_mem_mapM {A B : Type} {f : A → Option B} {given : List A} {results : List B}
    (done : given.mapM f = some results) {b : B} (member : b ∈ results) : ∃ a ∈ given, f a = some b := by
  have related := forall₂_of_mapM done
  clear done
  induction related with
  | nil => cases member
  | cons here _ ih =>
    rcases List.mem_cons.mp member with rfl | later
    · exact ⟨_, List.mem_cons_self .., here⟩
    · obtain ⟨a, there, same⟩ := ih later
      exact ⟨a, List.mem_cons_of_mem _ there, same⟩

theorem exists_mem_of_mapM {A B : Type} {f : A → Option B} {given : List A} {results : List B}
    (done : given.mapM f = some results) {a : A} (member : a ∈ given) :
    ∃ b ∈ results, f a = some b := by
  have related := forall₂_of_mapM done
  clear done
  induction related with
  | nil => cases member
  | cons here _ ih =>
    rcases List.mem_cons.mp member with rfl | later
    · exact ⟨_, List.mem_cons_self .., here⟩
    · obtain ⟨b, there, same⟩ := ih later
      exact ⟨b, List.mem_cons_of_mem _ there, same⟩

theorem mem_hashGroup {hash : U32} {sym : Symbol} :
    sym ∈ hashGroup sorted hash ↔ sym ∈ sorted ∧ sym.hash = hash := by
  rw [hashGroup, List.mem_filter, decide_eq_true_iff]

theorem destNameMurmur_of_insertSymbol {sym : Symbol} {entry : Entry}
    (inserted : insertSymbol sorted sym = some entry) : entry.destNameMurmur = sym.hash := by
  unfold insertSymbol at inserted
  cases given : sym.data <;> simp only [given, Option.map_eq_some_iff, Option.some.injEq] at inserted
  case immediate | readADRPGlobal | arithmetic =>
    obtain ⟨_, -, rfl⟩ := inserted
    rfl
  case dynamic | dataBlock =>
    subst inserted
    rfl

/-- An entry holds the definitions with its hash, of which there are some; it is a list of
candidates when there are more than one. -/
structure DbEntry.Emitted (sorted : List Symbol) (entry : DbEntry) : Prop where
  group : (hashGroup sorted entry.getNameMurmur32).mapM (insertSymbol sorted) =
    some entry.candidates
  nonempty : 0 < (hashGroup sorted entry.getNameMurmur32).length
  shape : match entry with
    | .single _ => (hashGroup sorted entry.getNameMurmur32).length = 1
    | .multiple _ _ => 1 < (hashGroup sorted entry.getNameMurmur32).length

/-- The entries for the rest of the sorted symbols: strictly ascending, each what its group gives,
one for each hash that is not cleared. -/
theorem emitSymbols_spec (ordered : sorted.Pairwise fun a b => a.hash.toNat ≤ b.hash.toNat)
    (suffix : rest <:+ sorted) (emitted : emitSymbols sorted rest cleared = some entries) :
    (entries.Pairwise fun a b => a.getNameMurmur32.toNat < b.getNameMurmur32.toNat) ∧
    (∀ entry ∈ entries, entry.Emitted sorted) ∧
    ∀ hash, (∃ entry ∈ entries, entry.getNameMurmur32 = hash) ↔
      hash ∉ cleared ∧ ∃ sym ∈ rest, sym.hash = hash := by
  induction rest generalizing cleared entries with
  | nil =>
    obtain rfl := Option.some.inj emitted
    simp
  | cons sym rest ih =>
    have later : rest <:+ sorted := (List.suffix_cons sym rest).trans suffix
    have member : sym ∈ sorted := suffix.subset (List.mem_cons_self ..)
    have above : ∀ other ∈ rest, sym.hash.toNat ≤ other.hash.toNat :=
      (List.pairwise_cons.mp (ordered.sublist suffix.sublist)).1
    rw [emitSymbols] at emitted
    by_cases seen : sym.hash ∈ cleared
    · simp only [if_pos seen, List.length_nil, if_true] at emitted
      obtain ⟨ascending, each, found⟩ := ih later emitted
      refine ⟨ascending, each, fun hash => (found hash).trans (and_congr_right fun fresh => ?_)⟩
      rw [List.exists_mem_cons_iff, or_iff_right]
      rintro rfl
      exact fresh seen
    · have here : sym ∈ hashGroup sorted sym.hash := mem_hashGroup.mpr ⟨member, rfl⟩
      have nonempty : 0 < (hashGroup sorted sym.hash).length := List.length_pos_of_mem here
      simp only [if_neg seen, if_neg (Nat.ne_of_gt nonempty)] at emitted
      by_cases many : (hashGroup sorted sym.hash).length > 1
      · -- a list of candidates; the group is cleared
        simp only [if_pos many, Option.bind_eq_bind, Option.bind_eq_some_iff] at emitted
        obtain ⟨candidates, inserted, entries', others, emitted⟩ := emitted
        obtain rfl := Option.some.inj emitted
        obtain ⟨ascending, each, found⟩ := ih later others
        refine ⟨List.pairwise_cons.mpr ⟨fun entry there => ?_, ascending⟩, ?_, fun hash => ?_⟩
        · obtain ⟨fresh, other, there', same⟩ := (found _).mp ⟨entry, there, rfl⟩
          have different : entry.getNameMurmur32 ≠ sym.hash := fun equal =>
            fresh (equal ▸ List.mem_cons_self ..)
          refine Nat.lt_of_le_of_ne (same ▸ above other there') fun equal => different ?_
          exact (BitVec.eq_of_toNat_eq equal).symm
        · rintro entry (_ | ⟨_, there⟩)
          · exact ⟨inserted, nonempty, many⟩
          · exact each entry there
        · rw [List.exists_mem_cons_iff, List.exists_mem_cons_iff, found, List.mem_cons]
          change sym.hash = hash ∨ _ ↔ _
          by_cases same : sym.hash = hash
          · subst same
            exact iff_of_true (.inl rfl) ⟨seen, .inl rfl⟩
          · rw [or_iff_right same, or_iff_right same, not_or, and_iff_right (Ne.symm same)]
      · -- the only definition with its hash
        have one : (hashGroup sorted sym.hash).length = 1 := by omega
        obtain ⟨only, group⟩ := List.length_eq_one_iff.mp one
        obtain rfl : sym = only := by rw [group] at here; exact List.mem_singleton.mp here
        simp only [if_neg many, Option.bind_eq_bind, Option.bind_eq_some_iff] at emitted
        obtain ⟨inserted, insertion, entries', others, emitted⟩ := emitted
        obtain rfl := Option.some.inj emitted
        have hash := destNameMurmur_of_insertSymbol insertion
        have alone : ∀ other ∈ rest, other.hash ≠ sym.hash := by
          intro other there same
          have sub : ((sym :: rest).filter fun other => other.hash = sym.hash).Sublist
              (hashGroup sorted sym.hash) := suffix.sublist.filter _
          have bound := sub.length_le
          rw [List.filter_cons_of_pos (by simp), List.length_cons, one] at bound
          have kept : other ∈ rest.filter fun other => other.hash = sym.hash :=
            List.mem_filter.mpr ⟨there, decide_eq_true same⟩
          have positive := List.length_pos_of_mem kept
          omega
        obtain ⟨ascending, each, found⟩ := ih later others
        refine ⟨List.pairwise_cons.mpr ⟨fun entry there => ?_, ascending⟩, ?_, fun hash' => ?_⟩
        · obtain ⟨-, other, there', same⟩ := (found _).mp ⟨entry, there, rfl⟩
          change inserted.destNameMurmur.toNat < _
          rw [hash, ← same]
          refine Nat.lt_of_le_of_ne (above other there') fun equal => alone other there' ?_
          exact (BitVec.eq_of_toNat_eq equal).symm
        · rintro entry (_ | ⟨_, there⟩)
          · have own : (DbEntry.single inserted).getNameMurmur32 = sym.hash := hash
            refine ⟨?_, own ▸ nonempty, own ▸ one⟩
            rw [own, group]
            change (do let entry ← insertSymbol sorted sym; _) = _
            rw [insertion]
            rfl
          · exact each entry there
        · rw [List.exists_mem_cons_iff, List.exists_mem_cons_iff, found]
          change inserted.destNameMurmur = hash' ∨ _ ↔ _
          rw [hash]
          by_cases same : sym.hash = hash'
          · subst same
            exact iff_of_true (.inl rfl) ⟨seen, .inl rfl⟩
          · rw [or_iff_right same, or_iff_right same]

/-- The whole database. -/
theorem generateSymbolDb_spec (sorts : Sorts symbols sorted)
    (generated : generateSymbolDb sorted = some entries) :
    (entries.Pairwise fun a b => a.getNameMurmur32.toNat < b.getNameMurmur32.toNat) ∧
    (∀ entry ∈ entries, entry.Emitted sorted) ∧
    ∀ hash, (∃ entry ∈ entries, entry.getNameMurmur32 = hash) ↔ ∃ sym ∈ symbols, sym.hash = hash := by
  obtain ⟨ascending, each, found⟩ :=
    emitSymbols_spec sorts.ordered (List.suffix_refl sorted) generated
  refine ⟨ascending, each, fun hash => (found hash).trans ?_⟩
  simp only [List.not_mem_nil, not_false_eq_true, true_and, sorts.perm.mem_iff]

end Hakkun.Sail
