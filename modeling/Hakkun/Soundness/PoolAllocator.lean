import Hakkun.Model.Util.PoolAllocator

/-! # Pool allocation

The bits of the allocator are the outstanding objects, and every call answers accordingly, as long
as the indices that it touches fit `s32`: the loop of `allocateIdx` and `free` pass a `size` where
the bit array takes an `s32`.
-/

namespace Hakkun.Util.PoolAllocator

open Machine

variable {Capacity : ℕ}

/-- The outstanding objects are different and lie in the buffer. -/
def History.Sound (history : History Capacity) : Prop :=
  history.outstanding.Nodup ∧ ∀ i ∈ history.outstanding, i < Capacity

/-- What a call has to answer: an object that was not outstanding, or none if all of them are; a
free exactly of what is outstanding; and no other bit changes. -/
def History.Answer (history : History Capacity) : Call → Prop
  | .allocate =>
    match history.pool.allocate with
    | .error _ => False
    | .ok (none, after) => (∀ i < Capacity, i ∈ history.outstanding) ∧
        ∀ j, after.mAllocations.occupied j = history.pool.mAllocations.occupied j
    | .ok (some index, after) => index < Capacity ∧ index ∉ history.outstanding ∧
        ∀ j ≠ index, after.mAllocations.occupied j = history.pool.mAllocations.occupied j
  | .free index =>
    match history.pool.free index with
    | .error _ => index.toNat ∉ history.outstanding
    | .ok after => index.toNat ∈ history.outstanding ∧
        ∀ j ≠ index.toNat, after.mAllocations.occupied j = history.pool.mAllocations.occupied j

/-- A call answers as it has to, and what is outstanding afterwards is sound. -/
def History.Correct (history : History Capacity) (call : Call) : Prop :=
  history.Answer call ∧ ∀ after, history.step call = some after → after.Sound

/-- The indices a call touches fit `s32`: the capacity does, or one of the objects below `2 ^ 31`
is free; and no outstanding object is where the freed index is cut off to. -/
def History.Narrow (history : History Capacity) : Call → Prop
  | .allocate => Capacity ≤ 2 ^ 31 ∨ ∃ i < 2 ^ 31, i ∉ history.outstanding
  | .free index => index.toNat < 2 ^ 32 ∨ Capacity ≤ index.toNat ∨
      index.toNat % 2 ^ 32 ∉ history.outstanding

/-- The bits are the outstanding objects, all of which an `s32` can index. -/
structure History.Inv (history : History Capacity) : Prop where
  nodup : history.outstanding.Nodup
  bound : ∀ i ∈ history.outstanding, i < Capacity
  narrow : ∀ i ∈ history.outstanding, i < 2 ^ 31
  bits : ∀ i, history.pool.mAllocations.occupied i = true ↔ i ∈ history.outstanding

theorem History.Inv.init : History.Inv ({} : History Capacity) where
  nodup := List.nodup_nil
  bound := by simp
  narrow := by simp
  bits i := by simp [BitArray.occupied]

theorem toS32_small {index : ℕ} (small : index < 2 ^ 31) : toS32 index = index :=
  toS32_of_lt (by omega) (by exact_mod_cast small)

/-- Between `2 ^ 31` and `2 ^ 32` an index becomes negative. -/
theorem toS32_negative {index : ℕ} (lower : 2 ^ 31 ≤ index % 2 ^ 32) : toS32 index < 0 := by
  unfold toS32
  rw [Int.bmod_def]
  split_ifs <;> omega

theorem toS32_mod (index : ℕ) : toS32 index = toS32 (index % 2 ^ 32 : ℕ) := by
  unfold toS32
  rw [Int.bmod_def, Int.bmod_def]
  have : ((index % 2 ^ 32 : ℕ) : ℤ) % 2 ^ 32 = (index : ℤ) % 2 ^ 32 := by omega
  rw [show ((2 ^ 32 : ℕ) : ℤ) = 2 ^ 32 by norm_num]
  rw [this]

variable {pool : PoolAllocator Capacity}

/-- The loop takes the first free index. -/
theorem allocateIdxLoop_free {left i j : ℕ} (range : i + left = Capacity) (lower : i ≤ j)
    (inside : j < Capacity) (small : j < 2 ^ 31) (free : pool.mAllocations.occupied j = false)
    (taken : ∀ k, i ≤ k → k < j → pool.mAllocations.occupied k = true) :
    ∃ after, allocateIdxLoop pool left i = .ok ((j : ℤ), ⟨after⟩) ∧
      ∀ k, after.occupied k = if k = j then true else pool.mAllocations.occupied k := by
  induction left generalizing i with
  | zero => omega
  | succ left ih =>
    have here := BitArray.get_eq pool.mAllocations (show i < Capacity by omega)
    unfold allocateIdxLoop
    rw [toS32_small (show i < 2 ^ 31 by omega), here]
    rcases Nat.eq_or_lt_of_le lower with rfl | below
    · obtain ⟨after, stored, bits⟩ := BitArray.set_eq pool.mAllocations inside true
      exact ⟨after, by simp [free, stored, bind, Except.bind, pure, Except.pure], bits⟩
    · obtain ⟨after, found, bits⟩ := ih (by omega) below
        (fun k first second => taken k (by omega) second)
      exact ⟨after, by simp [taken i le_rfl below, found, bind, Except.bind], bits⟩

/-- With every bit set the loop fails. -/
theorem allocateIdxLoop_full {left i : ℕ} (range : i + left = Capacity)
    (narrow : Capacity ≤ 2 ^ 31)
    (taken : ∀ k, i ≤ k → k < Capacity → pool.mAllocations.occupied k = true) :
    allocateIdxLoop pool left i = .ok (-1, pool) := by
  induction left generalizing i with
  | zero => rfl
  | succ left ih =>
    have here := BitArray.get_eq pool.mAllocations (show i < Capacity by omega)
    unfold allocateIdxLoop
    rw [toS32_small (show i < 2 ^ 31 by omega), here, taken i le_rfl (by omega)]
    exact ih (by omega) fun k first second => taken k (by omega) second

/-- At index `2 ^ 31` the loop aborts. -/
theorem allocateIdxLoop_wide {left i : ℕ} (range : i + left = Capacity) (lower : i ≤ 2 ^ 31)
    (wide : 2 ^ 31 < Capacity)
    (taken : ∀ k, i ≤ k → k < 2 ^ 31 → pool.mAllocations.occupied k = true) :
    allocateIdxLoop pool left i = .error BitArray.outOfBounds := by
  induction left generalizing i with
  | zero => omega
  | succ left ih =>
    unfold allocateIdxLoop
    rcases Nat.eq_or_lt_of_le lower with rfl | below
    · rw [BitArray.get_error _ (.inl (toS32_negative (by norm_num)))]
      rfl
    · rw [toS32_small below, BitArray.get_eq pool.mAllocations (show i < Capacity by omega),
        taken i le_rfl below]
      exact ih (by omega) below fun k first second => taken k (by omega) second

/-- While an index below `2 ^ 31` is free, the lowest free index is handed out. -/
theorem allocate_free (pool : PoolAllocator Capacity) {i : ℕ} (inside : i < Capacity) (small : i < 2 ^ 31)
    (free : pool.mAllocations.occupied i = false) :
    ∃ j after, pool.allocate = .ok (some j, after) ∧ j < Capacity ∧ j < 2 ^ 31 ∧
      pool.mAllocations.occupied j = false ∧
      (∀ k < j, pool.mAllocations.occupied k = true) ∧
      ∀ k, after.mAllocations.occupied k =
        if k = j then true else pool.mAllocations.occupied k := by
  classical
  have exists_free : ∃ k, pool.mAllocations.occupied k = false := ⟨i, free⟩
  obtain ⟨j, found⟩ : ∃ j, j = Nat.find exists_free := ⟨_, rfl⟩
  have least : j ≤ i := found ▸ Nat.find_min' exists_free free
  have chosen : pool.mAllocations.occupied j = false := found ▸ Nat.find_spec exists_free
  have taken (k : ℕ) (below : k < j) : pool.mAllocations.occupied k = true := by
    have := Nat.find_min exists_free (found ▸ below)
    simpa using this
  obtain ⟨after, scanned, bits⟩ := allocateIdxLoop_free (Nat.zero_add Capacity) (Nat.zero_le j)
    (by omega) (by omega) chosen fun k _ => taken k
  refine ⟨j, ⟨after⟩, ?_, by omega, by omega, chosen, taken, bits⟩
  have nonnegative : (j : ℤ) ≠ -1 := by omega
  have data : getData Capacity j = .ok j := if_pos (by omega)
  unfold allocate allocateIdx
  simp [scanned, nonnegative, data, bind, Except.bind, pure, Except.pure]

theorem allocate_full (narrow : Capacity ≤ 2 ^ 31)
    (taken : ∀ k < Capacity, pool.mAllocations.occupied k = true) :
    pool.allocate = .ok (none, pool) := by
  have scanned := allocateIdxLoop_full (Nat.zero_add Capacity) narrow fun k _ => taken k
  unfold allocate allocateIdx
  simp [scanned, bind, Except.bind, pure, Except.pure]

theorem allocate_wide (pool : PoolAllocator Capacity) (wide : 2 ^ 31 < Capacity)
    (taken : ∀ k < 2 ^ 31, pool.mAllocations.occupied k = true) :
    pool.allocate = .error BitArray.outOfBounds := by
  have scanned := allocateIdxLoop_wide (Nat.zero_add Capacity) (Nat.zero_le _) wide
    fun k _ => taken k
  unfold allocate allocateIdx
  rw [scanned]
  rfl

theorem free_outside {index : U64} (outside : Capacity ≤ index.toNat) :
    ∃ message, pool.free index = .error message := by
  unfold free
  rw [if_pos (by omega)]
  exact ⟨_, rfl⟩

/-- An index that becomes negative is rejected by the bit array. -/
theorem free_negative {index : U64} (inside : index.toNat < Capacity)
    (negative : 2 ^ 31 ≤ index.toNat % 2 ^ 32) : ∃ message, pool.free index = .error message := by
  unfold free
  rw [if_neg (by omega), BitArray.get_error _ (.inl (toS32_negative negative))]
  exact ⟨_, rfl⟩

/-- Otherwise the object at the cut off index is the one that is freed. -/
theorem free_small (pool : PoolAllocator Capacity) {index : U64} (inside : index.toNat < Capacity)
    (small : index.toNat % 2 ^ 32 < 2 ^ 31) :
    if pool.mAllocations.occupied (index.toNat % 2 ^ 32) = true then
      ∃ after, pool.free index = .ok after ∧ ∀ k, after.mAllocations.occupied k =
        if k = index.toNat % 2 ^ 32 then false else pool.mAllocations.occupied k
    else ∃ message, pool.free index = .error message := by
  have bound : index.toNat % 2 ^ 32 < Capacity := (Nat.mod_le _ _).trans_lt inside
  have cut : toS32 index.toNat = (index.toNat % 2 ^ 32 : ℕ) := by
    rw [toS32_mod, toS32_small small]
  have read := BitArray.get_eq pool.mAllocations bound
  obtain ⟨after, stored, bits⟩ := BitArray.set_eq pool.mAllocations bound false
  have range : ((index.toNat % 2 ^ 32 : ℕ) : ℤ) ≥ 0 ∧
      ((index.toNat % 2 ^ 32 : ℕ) : ℤ) < Capacity := by omega
  have accepted : ¬ ¬ index.toNat < Capacity := not_not_intro inside
  cases occupied : pool.mAllocations.occupied (index.toNat % 2 ^ 32) with
  | true =>
    rw [if_pos rfl]
    refine ⟨⟨after⟩, ?_, bits⟩
    unfold free freeIdx
    rw [if_neg accepted, cut, read, occupied]
    simp only [bind, Except.bind, pure, Except.pure, not_true_eq_false, if_false, range,
      and_self, ne_eq, stored]
  | false =>
    rw [if_neg Bool.false_ne_true]
    unfold free
    rw [if_neg accepted, cut, read, occupied]
    exact ⟨_, rfl⟩

variable {history : History Capacity}

theorem History.Inv.sound (inv : history.Inv) : history.Sound := ⟨inv.nodup, inv.bound⟩

theorem History.Inv.occupied_false (inv : history.Inv) {i : ℕ} (free : i ∉ history.outstanding) :
    history.pool.mAllocations.occupied i = false := by
  rw [← Bool.not_eq_true, inv.bits]
  exact free

/-- What `allocate` does to a history. -/
theorem History.Inv.allocate_cases (inv : history.Inv) (narrow : history.Narrow .allocate) :
    (∃ j after, history.pool.allocate = .ok (some j, after) ∧ j < Capacity ∧ j < 2 ^ 31 ∧
      j ∉ history.outstanding ∧ ∀ k, after.mAllocations.occupied k =
        if k = j then true else history.pool.mAllocations.occupied k) ∨
    history.pool.allocate = .ok (none, history.pool) ∧ ∀ i < Capacity, i ∈ history.outstanding := by
  by_cases full : ∀ i < Capacity, i ∈ history.outstanding
  · have fits : Capacity ≤ 2 ^ 31 := by
      by_contra wide
      have := inv.narrow (2 ^ 31) (full _ (by omega))
      omega
    exact .inr ⟨allocate_full fits fun k inside => (inv.bits k).mpr (full k inside), full⟩
  · push Not at full
    obtain ⟨i, inside, free⟩ := full
    obtain ⟨i, inside, small, free⟩ :
        ∃ i, i < Capacity ∧ i < 2 ^ 31 ∧ i ∉ history.outstanding := by
      rcases le_or_gt Capacity (2 ^ 31) with fits | wide
      · exact ⟨i, inside, by omega, free⟩
      · rcases narrow with fits | ⟨i, small, free⟩
        · omega
        · exact ⟨i, by omega, small, free⟩
    obtain ⟨j, after, found, bound, below, chosen, -, bits⟩ :=
      allocate_free history.pool inside small (inv.occupied_false free)
    refine .inl ⟨j, after, found, bound, below, ?_, bits⟩
    rw [← inv.bits, chosen]
    exact Bool.false_ne_true

/-- What `free` does to a history. -/
theorem History.Inv.free_cases (inv : history.Inv) {index : U64}
    (narrow : history.Narrow (.free index)) :
    (index.toNat ∈ history.outstanding ∧ ∃ after, history.pool.free index = .ok after ∧
      ∀ k, after.mAllocations.occupied k =
        if k = index.toNat then false else history.pool.mAllocations.occupied k) ∨
    index.toNat ∉ history.outstanding ∧
      ∃ message, history.pool.free index = .error message := by
  rcases le_or_gt Capacity index.toNat with outside | inside
  · refine .inr ⟨fun member => ?_, free_outside outside⟩
    have := inv.bound _ member
    omega
  rcases le_or_gt (2 ^ 31) (index.toNat % 2 ^ 32) with negative | small
  · refine .inr ⟨fun member => ?_, free_negative inside negative⟩
    have := inv.narrow _ member
    omega
  have outcome := free_small history.pool inside small
  rcases lt_or_ge index.toNat (2 ^ 32) with fits | wide
  · rw [Nat.mod_eq_of_lt fits] at outcome
    by_cases member : index.toNat ∈ history.outstanding
    · rw [if_pos ((inv.bits _).mpr member)] at outcome
      exact .inl ⟨member, outcome⟩
    · rw [if_neg ((inv.bits _).not.mpr member)] at outcome
      exact .inr ⟨member, outcome⟩
  · have elsewhere : index.toNat % 2 ^ 32 ∉ history.outstanding := by
      rcases narrow with fits | outside | elsewhere
      · omega
      · omega
      · exact elsewhere
    rw [if_neg ((inv.bits _).not.mpr elsewhere)] at outcome
    refine .inr ⟨fun member => ?_, outcome⟩
    have := inv.narrow _ member
    omega

/-- A call that touches narrow indices keeps the bits and the outstanding objects together. -/
theorem History.Inv.step (inv : history.Inv) {call : Call} (narrow : history.Narrow call)
    {after : History Capacity} (stepped : history.step call = some after) : after.Inv := by
  cases call with
  | allocate =>
    rcases inv.allocate_cases narrow with ⟨j, pool, found, bound, small, fresh, bits⟩ | ⟨full, -⟩
    · simp only [History.step, found, Option.some.injEq] at stepped
      subst stepped
      refine ⟨List.nodup_cons.mpr ⟨fresh, inv.nodup⟩, ?_, ?_, ?_⟩
      · exact List.forall_mem_cons.mpr ⟨bound, inv.bound⟩
      · exact List.forall_mem_cons.mpr ⟨small, inv.narrow⟩
      · intro i
        rw [bits, List.mem_cons]
        split_ifs with same
        · exact iff_of_true rfl (.inl same)
        · rw [inv.bits, or_iff_right same]
    · simp only [History.step, full, Option.some.injEq] at stepped
      subst stepped
      exact inv
  | free index =>
    rcases inv.free_cases narrow with ⟨member, pool, freed, bits⟩ | ⟨-, message, refused⟩
    · simp only [History.step, freed, Option.some.injEq] at stepped
      subst stepped
      refine ⟨inv.nodup.erase _, ?_, ?_, ?_⟩
      · exact fun i kept => inv.bound i (List.mem_of_mem_erase kept)
      · exact fun i kept => inv.narrow i (List.mem_of_mem_erase kept)
      · intro i
        rw [bits, inv.nodup.mem_erase_iff]
        split_ifs with same
        · exact iff_of_false id fun kept => kept.1 same
        · rw [inv.bits, and_iff_right same]
    · simp only [History.step, refused, reduceCtorEq] at stepped

/-- A call is correct precisely when its indices fit. -/
theorem History.Inv.correct_iff (inv : history.Inv) (call : Call) :
    history.Narrow call ↔ history.Correct call := by
  constructor
  · intro narrow
    refine ⟨?_, fun after stepped => (inv.step narrow stepped).sound⟩
    cases call with
    | allocate =>
      unfold History.Answer
      rcases inv.allocate_cases narrow with ⟨j, pool, found, bound, -, fresh, bits⟩ | ⟨full, all⟩
      · simp only [found]
        exact ⟨bound, fresh, fun k other => by rw [bits, if_neg other]⟩
      · simp only [full]
        exact ⟨all, fun k => trivial⟩
    | free index =>
      unfold History.Answer
      rcases inv.free_cases narrow with ⟨member, pool, freed, bits⟩ | ⟨absent, message, refused⟩
      · simp only [freed]
        exact ⟨member, fun k other => by rw [bits, if_neg other]⟩
      · simp only [refused]
        exact absent
  · rintro ⟨answer, -⟩
    by_contra wide
    cases call with
    | allocate =>
      unfold History.Narrow at wide
      push Not at wide
      have aborted := allocate_wide history.pool wide.1 fun k small =>
        (inv.bits k).mpr (wide.2 k small)
      simp only [History.Answer, aborted] at answer
    | free index =>
      unfold History.Narrow at wide
      push Not at wide
      obtain ⟨large, inside, member⟩ := wide
      have outcome := free_small history.pool inside (inv.narrow _ member)
      rw [if_pos ((inv.bits _).mpr member)] at outcome
      obtain ⟨after, freed, -⟩ := outcome
      simp only [History.Answer, freed] at answer
      have := inv.narrow _ answer.1
      omega

/-- Along a run all calls are correct precisely when the indices of all of them fit. -/
theorem runMeets_correct_iff (calls : List Call) :
    RunMeets History.step History.Correct ({} : History Capacity) calls ↔
      RunMeets History.step History.Narrow ({} : History Capacity) calls :=
  (runMeets_congr (fun _ _ _ inv narrow stepped => inv.step narrow stepped)
    (fun _ call inv => inv.correct_iff call) History.Inv.init calls).symm

/-- Up to `2 ^ 31` objects every call of every run touches narrow indices. -/
theorem narrow_of_le (fits : Capacity ≤ 2 ^ 31) (calls : List Call) :
    RunMeets History.step History.Narrow ({} : History Capacity) calls := by
  refine runMeets_of_forall (fun history call => ?_) _ calls
  cases call with
  | allocate => exact .inl fits
  | free index =>
    rcases lt_or_ge index.toNat (2 ^ 32) with small | wide
    · exact .inl small
    · exact .inr (.inl (by omega))

/-- A pool of `2 ^ 32 + 1` objects: freeing the last one, which was never allocated, frees the
first. -/
theorem freeLast_not_correct :
    ¬ RunMeets History.step History.Correct ({} : History (2 ^ 32 + 1))
      [.allocate, .free (2 ^ 32)] := by
  rintro ⟨-, rest⟩
  have init : ({} : History (2 ^ 32 + 1)).Inv := History.Inv.init
  obtain ⟨j, pool, found, -, -, -, lowest, -⟩ :=
    allocate_free ({} : PoolAllocator (2 ^ 32 + 1)) (i := 0) (by decide) (by decide)
      (by decide)
  have first : j = 0 := by
    by_contra later
    exact Bool.false_ne_true (lowest 0 (Nat.pos_of_ne_zero later))
  subst first
  have stepped : ({} : History (2 ^ 32 + 1)).step .allocate = some ⟨pool, [0]⟩ := by
    simp only [History.step, found]
  have narrow : ({} : History (2 ^ 32 + 1)).Narrow .allocate := .inr ⟨0, by decide, by simp⟩
  have fits := ((init.step narrow stepped).correct_iff _).mpr (rest _ stepped).1
  rcases fits with small | outside | elsewhere
  · exact absurd small (by decide)
  · exact absurd outside (by decide)
  · exact elsewhere (List.mem_singleton.mpr (by decide))

end Hakkun.Util.PoolAllocator
