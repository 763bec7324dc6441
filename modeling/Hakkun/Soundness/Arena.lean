import Hakkun.Model.Util.Arena
import Mathlib.Data.List.Induction
import Mathlib.Data.List.Nodup

/-! # Keys of an arena

The keys come from a counter of 32 bits. Up to the first `2 ^ 32` entries every key is new, and the
arena is a finite map; the next entry gets the key of the first one, whether that is there or not.
-/

namespace Hakkun.Util.Arena

variable {T : Type} {arena : Arena T} {log : List (Event T)} {history : History T}

/-! ## What the events say -/

/-- The value that was added with a key and not dropped since. -/
def value? : List (Event T) → U32 → Option T
  | [], _ => none
  | .added other value :: earlier, key => if other = key then some value else value? earlier key
  | .dropped other :: earlier, key => if other = key then none else value? earlier key

/-- A key was given out. -/
def WasAdded (log : List (Event T)) (key : U32) : Prop := ∃ value, .added key value ∈ log

/-- A key was given out and dropped after. -/
def WasDropped : List (Event T) → U32 → Prop
  | [], _ => False
  | .added _ _ :: earlier, key => WasDropped earlier key
  | .dropped other :: earlier, key => (other = key ∧ WasAdded earlier key) ∨ WasDropped earlier key

/-- Keys in the arena are distinct, `get` gives the value that was added with a key unless it was
dropped, and a key that was dropped is not there. -/
structure History.Correct (history : History T) : Prop where
  distinct : (history.arena.mEntries.map Prod.fst).Nodup
  kept : ∀ key value, value? history.log key = some value → history.arena.get key = some value
  gone : ∀ key, WasDropped history.log key → history.arena.has key = false

/-- The number of entries that were added. -/
def adds (calls : List (Call T)) : ℕ := calls.countP fun call => call matches .add _

theorem wasAdded_cons_added {key other : U32} {value : T} :
    WasAdded (.added other value :: log) key ↔ other = key ∨ WasAdded log key := by
  constructor
  · rintro ⟨found, member⟩
    rcases List.mem_cons.mp member with same | earlier
    · exact .inl (Event.added.inj same).1.symm
    · exact .inr ⟨found, earlier⟩
  · rintro (rfl | ⟨found, earlier⟩)
    · exact ⟨value, List.mem_cons_self ..⟩
    · exact ⟨found, List.mem_cons_of_mem _ earlier⟩

theorem wasAdded_cons_dropped {key other : U32} :
    WasAdded (.dropped other :: log) key ↔ WasAdded log key := by
  constructor
  · rintro ⟨found, member⟩
    rcases List.mem_cons.mp member with same | earlier
    · cases same
    · exact ⟨found, earlier⟩
  · rintro ⟨found, earlier⟩
    exact ⟨found, List.mem_cons_of_mem _ earlier⟩

/-- A key that was given out is there or was dropped. -/
theorem wasDropped_of_value?_eq_none {key : U32} (added : WasAdded log key)
    (absent : value? log key = none) : WasDropped log key := by
  induction log with
  | nil => exact absurd added (by simp [WasAdded])
  | cons event earlier ih =>
    cases event with
    | added other value =>
      rw [value?] at absent
      split_ifs at absent with same
      exact ih ((wasAdded_cons_added.mp added).resolve_left same) absent
    | dropped other =>
      have before := wasAdded_cons_dropped.mp added
      rw [value?] at absent
      split_ifs at absent with same
      · exact .inl ⟨same, before⟩
      · exact .inr (ih before absent)

theorem wasAdded_of_wasDropped {key : U32} (dropped : WasDropped log key) : WasAdded log key := by
  induction log with
  | nil => exact dropped.elim
  | cons event earlier ih =>
    cases event with
    | added other value => exact wasAdded_cons_added.mpr (.inr (ih dropped))
    | dropped other =>
      apply wasAdded_cons_dropped.mpr
      rcases dropped with ⟨-, before⟩ | dropped
      · exact before
      · exact ih dropped

theorem wasAdded_of_value? {key : U32} {value : T} (found : value? log key = some value) :
    WasAdded log key := by
  induction log with
  | nil => cases found
  | cons event earlier ih =>
    cases event with
    | added other _ =>
      rw [value?] at found
      split_ifs at found with same
      · exact wasAdded_cons_added.mpr (.inl same)
      · exact wasAdded_cons_added.mpr (.inr (ih found))
    | dropped other =>
      rw [value?] at found
      split_ifs at found
      exact wasAdded_cons_dropped.mpr (ih found)

/-! ## Lookups -/

theorem has_eq_isSome (arena : Arena T) (key : U32) : arena.has key = (arena.get key).isSome := by
  rw [has, get, Option.isSome_map, Bool.eq_iff_iff, List.any_eq_true, List.find?_isSome]

theorem has_iff_mem (arena : Arena T) (key : U32) :
    arena.has key = true ↔ key ∈ arena.mEntries.map Prod.fst := by
  simp only [has, List.any_eq_true, decide_eq_true_iff, List.mem_map]

theorem get_add (arena : Arena T) (value : T) (key : U32) :
    (arena.add value).2.get key = (arena.get key).or
      (if arena.mCurrentKey = key then some value else none) := by
  rw [get, get, add, List.find?_append, List.find?_singleton]
  by_cases same : arena.mCurrentKey = key
  · cases arena.mEntries.find? fun entry => entry.1 = key <;> simp [same]
  · cases arena.mEntries.find? fun entry => entry.1 = key <;> simp [same]

theorem get_drop (distinct : (arena.mEntries.map Prod.fst).Nodup) (key other : U32) :
    (arena.drop key).get other = if key = other then none else arena.get other := by
  obtain ⟨entries, counter⟩ := arena
  simp only [get, drop] at distinct ⊢
  induction entries with
  | nil => simp
  | cons entry rest ih =>
    obtain ⟨fresh, later⟩ := List.nodup_cons.mp distinct
    rw [List.eraseP_cons]
    by_cases found : entry.1 = key
    · simp only [found, decide_true, cond_true, List.find?_cons]
      by_cases same : key = other
      · have absent : rest.find? (fun entry => entry.1 = other) = none := by
          refine List.find?_eq_none.mpr fun entry' member => ?_
          intro equal
          exact fresh (List.mem_map.mpr ⟨entry', member, by simp_all⟩)
        simp [same, absent]
      · simp [same]
    · simp only [found, decide_false, cond_false, List.find?_cons]
      by_cases here : entry.1 = other
      · have different : key ≠ other := fun same => found (here.trans same.symm)
        simp [here, different]
      · simpa [here] using ih later

/-! ## The first keys -/

/-- As long as the counter did not wrap around, the arena is the map that the events describe, and
the keys that were given out are those below the counter. -/
structure History.Inv (history : History T) (added : ℕ) : Prop where
  counter : history.arena.mCurrentKey = BitVec.ofNat 32 added
  distinct : (history.arena.mEntries.map Prod.fst).Nodup
  map : ∀ key, history.arena.get key = value? history.log key
  given : ∀ key, WasAdded history.log key ↔ key.toNat < added
  gone : ∀ key, WasDropped history.log key → value? history.log key = none

theorem History.Inv.correct {added : ℕ} (inv : history.Inv added) : history.Correct := by
  refine ⟨inv.distinct, fun key value found => (inv.map key).trans found, fun key dropped => ?_⟩
  rw [has_eq_isSome, inv.map, inv.gone key dropped]
  rfl

theorem History.Inv.init : ({} : History T).Inv 0 := by
  refine ⟨rfl, List.nodup_nil, fun _ => rfl, fun key => ?_, fun _ => False.elim⟩
  exact iff_of_false (by simp [WasAdded]) (Nat.not_lt_zero _)

/-- A new key. -/
theorem History.Inv.add {added : ℕ} (inv : history.Inv added) (room : added < 2 ^ 32) (value : T) :
    (history.step (.add value)).Inv (added + 1) := by
  have key : history.arena.mCurrentKey.toNat = added := by
    rw [inv.counter, BitVec.toNat_ofNat, Nat.mod_eq_of_lt room]
  have fresh : ¬ WasAdded history.log history.arena.mCurrentKey := by
    rw [inv.given, key]
    exact Nat.lt_irrefl _
  have absent : value? history.log history.arena.mCurrentKey = none :=
    Option.eq_none_iff_forall_not_mem.mpr fun _ found => fresh (wasAdded_of_value? found)
  constructor
  · change history.arena.mCurrentKey + 1 = _
    rw [inv.counter, BitVec.ofNat_add]
    rfl
  · change ((history.arena.mEntries ++ [_]).map Prod.fst).Nodup
    rw [List.map_append]
    refine List.Nodup.append inv.distinct (List.nodup_singleton _) fun key there here => ?_
    obtain rfl := List.mem_singleton.mp here
    have present := (has_iff_mem history.arena _).mpr there
    rw [has_eq_isSome, inv.map, absent] at present
    cases present
  · intro other
    change (history.arena.add value).2.get other = value? (.added _ _ :: _) other
    rw [get_add, inv.map, value?]
    by_cases same : history.arena.mCurrentKey = other
    · rw [if_pos same, if_pos same, ← same, absent, Option.none_or]
    · rw [if_neg same, if_neg same, Option.or_none]
  · intro other
    change WasAdded (.added history.arena.mCurrentKey _ :: _) other ↔ _
    rw [wasAdded_cons_added, inv.given, ← BitVec.toNat_inj]
    omega
  · intro other dropped
    have before : WasAdded history.log other :=
      wasAdded_of_wasDropped (show WasDropped history.log other from dropped)
    change value? (.added history.arena.mCurrentKey _ :: _) other = none
    have different : history.arena.mCurrentKey ≠ other := fun same => fresh (same ▸ before)
    rw [value?, if_neg different, inv.gone other dropped]

theorem History.Inv.drop {added : ℕ} (inv : history.Inv added) (key : U32) :
    (history.step (.drop key)).Inv added := by
  constructor
  · exact inv.counter
  · exact inv.distinct.sublist (List.eraseP_sublist.map Prod.fst)
  · intro other
    change (history.arena.drop key).get other = value? (.dropped key :: _) other
    rw [get_drop inv.distinct, value?, inv.map]
  · intro other
    exact wasAdded_cons_dropped.trans (inv.given other)
  · intro other dropped
    change value? (.dropped key :: _) other = none
    rw [value?]
    rcases dropped with ⟨same, -⟩ | dropped
    · rw [if_pos same]
    · rw [inv.gone other dropped, ite_self]

theorem History.of_append (calls : List (Call T)) (call : Call T) :
    History.of (calls ++ [call]) = (History.of calls).step call := by
  rw [History.of, List.foldl_append]
  rfl

/-- After at most `2 ^ 32` entries. -/
theorem History.inv_of (calls : List (Call T)) (few : adds calls ≤ 2 ^ 32) :
    (History.of calls).Inv (adds calls) := by
  induction calls using List.reverseRecOn with
  | nil => exact History.Inv.init
  | append_singleton calls call ih =>
    rw [adds, List.countP_append] at few ⊢
    rw [History.of_append]
    have earlier := ih (by rw [adds]; omega)
    cases call with
    | add value =>
      have room : adds calls + 1 ≤ 2 ^ 32 := few
      exact earlier.add room value
    | drop key => exact earlier.drop key

/-! ## The key after the last -/

/-- The counter is back at the first key, which is not new. -/
theorem History.Inv.not_correct_add (inv : history.Inv (2 ^ 32)) (value : T) :
    ¬ (history.step (.add value)).Correct := by
  rintro ⟨distinct, -, gone⟩
  have wrapped : history.arena.mCurrentKey = 0 := inv.counter
  have first : WasAdded history.log 0 := (inv.given 0).mpr (by decide)
  change ((history.arena.mEntries ++ [(history.arena.mCurrentKey, value)]).map Prod.fst).Nodup
    at distinct
  rw [List.map_append, wrapped] at distinct
  cases there : value? history.log 0 with
  | some _ =>
    have present : history.arena.has 0 = true := by rw [has_eq_isSome, inv.map, there]; rfl
    exact (List.disjoint_of_nodup_append distinct) ((has_iff_mem _ _).mp present)
      (List.mem_singleton_self _)
  | none =>
    have dropped : WasDropped history.log 0 := wasDropped_of_value?_eq_none first there
    have absent := gone 0 dropped
    change (history.arena.add value).2.has 0 = false at absent
    rw [has_eq_isSome, get_add, inv.map, there, wrapped] at absent
    cases absent

/-- The arena is correct all along a run exactly if no more entries are added than there are keys. -/
theorem correct_iff_adds (calls : List (Call T)) :
    (∀ before, before <+: calls → (History.of before).Correct) ↔ adds calls ≤ 2 ^ 32 := by
  constructor
  · intro correct
    induction calls using List.reverseRecOn with
    | nil => exact Nat.zero_le _
    | append_singleton calls call ih =>
      have few := ih fun before early => correct before (early.trans (List.prefix_append ..))
      cases call with
      | drop key => simpa [adds] using few
      | add value =>
        by_contra many
        have full : adds calls = 2 ^ 32 := by
          simp only [adds, List.countP_append] at few many ⊢
          simp at many
          omega
        have inv := History.inv_of calls few
        rw [full] at inv
        refine inv.not_correct_add value ?_
        have last := correct _ (List.prefix_refl _)
        rwa [History.of_append] at last
  · rintro few before ⟨later, rfl⟩
    refine (History.inv_of before ?_).correct
    rw [adds, List.countP_append] at few
    rw [adds]
    omega

/-- One entry that stays, and entries that are dropped as soon as they are added. -/
def reuse (others : List ℕ) : List (Call Unit) :=
  .add () :: others.flatMap fun other => [.add (), .drop (BitVec.ofNat 32 other)]

theorem adds_reuse (others : List ℕ) : adds (reuse others) = others.length + 1 := by
  have pairs : adds (others.flatMap fun other => [.add (), .drop (BitVec.ofNat 32 other)] :
      List (Call Unit)) = others.length := by
    induction others with
    | nil => rfl
    | cons other rest ih =>
      rw [adds] at ih
      rw [List.flatMap_cons, adds, List.countP_append, ih, List.length_cons, Nat.add_comm]
      rfl
  rw [reuse, adds, List.countP_cons, ← adds, pairs]
  rfl

/-- While the first entry stays, the keys of `2 ^ 32 - 1` other ones are given out and dropped; the
next entry gets the key of the first. -/
theorem not_correct_reuse : ¬ ∀ before, before <+: reuse (List.range' 1 (2 ^ 32 - 1)) ++ [.add ()] →
    (History.of before).Correct := by
  intro correct
  have count : adds (reuse (List.range' 1 (2 ^ 32 - 1))) = 2 ^ 32 := by
    rw [adds_reuse, List.length_range', Nat.sub_add_cancel (Nat.two_pow_pos 32)]
  have inv := History.inv_of (reuse (List.range' 1 (2 ^ 32 - 1))) count.le
  rw [count] at inv
  have last := correct _ (List.prefix_refl _)
  rw [History.of_append] at last
  exact inv.not_correct_add () last

end Hakkun.Util.Arena
