import Hakkun.Model.Ro.ModuleList
import Hakkun.Soundness.InsertionSort
import Mathlib.Data.Set.List

/-! # The order of the module list

The sort compares bases and aborts for an invalid module, so that a list that is returned is in the
order of the bases. The loops before and after it do not move modules; a list that is too long is
written outside of its array.
-/

namespace Hakkun.Ro

open Machine Machine.Memory Util

variable {M : Type} {memory after : Machine.Memory (ListedModule M)}
  {address other sModules : Address} {change : ListedModule M → ListedModule M} {block : ℕ}
  {loader : Loader M} {autoLoadList : List (Option M)}

section Assign

theorem read_assign_self :
    (assign memory address change).read address = (memory.read address).map change := by
  have slots : (assign memory address change).slots address =
      (memory.slots address).map fun object => { object with value := object.value.map change } :=
    Function.update_self ..
  rw [Memory.read, slots, Memory.read]
  cases memory.slots address <;> rfl

theorem read_assign_of_ne (different : other ≠ address) :
    (assign memory address change).read other = memory.read other :=
  read_congr (Function.update_of_ne different ..)

theorem wild_assign : (assign memory address change).wild = (memory.touch address).wild := rfl

theorem calm_assign (valid : memory.Valid address) :
    Calm memory (assign memory address change) :=
  ⟨rfl, rfl, (Calm.touch valid).wild⟩

theorem misused_assign (used : memory.misused = false) (live : memory.Live address) :
    (assign memory address change).misused = false := by
  obtain ⟨object, held⟩ := Option.ne_none_iff_exists'.mp live
  simp [assign, Memory.touch, used, held]

end Assign

/-- The array `sModules`, in a block of its own, with an object in each of its slots. -/
structure StaticModules (memory : Machine.Memory (ListedModule M)) (block : ℕ) : Prop where
  size : memory.blocks[block]? = some cMaxModuleNum
  kept : block ∉ memory.freed
  held : ∀ i < cMaxModuleNum, ∃ module, memory.read (block, i) = some module
  usable : Usable (ListedModule.objectType M) memory

theorem StaticModules.valid_iff (static : StaticModules memory block) {i : ℕ} :
    memory.Valid (block, i) ↔ i < cMaxModuleNum := by
  rw [Valid, static.size, Option.getD_some]
  exact and_iff_left static.kept

theorem StaticModules.assign (static : StaticModules memory block) {i : ℕ}
    (bound : i < cMaxModuleNum) : StaticModules (assign memory (block, i) change) block := by
  have calm : Calm memory (Ro.assign memory (block, i) change) :=
    calm_assign (static.valid_iff.mpr bound)
  obtain ⟨module, here⟩ := static.held i bound
  refine ⟨calm.blocks ▸ static.size, calm.freed ▸ static.kept, fun j inside => ?_,
    static.usable.of_calm calm (misused_assign static.usable.used (live_of_read here)) nofun⟩
  by_cases same : j = i
  · exact ⟨change module, by rw [same, read_assign_self, here]; rfl⟩
  · rw [read_assign_of_ne (by simp [same])]
    exact static.held j inside

section Collect

theorem wild_collectModules (wild : memory.wild = true) (start : ℕ) :
    (collectModules sModules autoLoadList start memory).wild = true := by
  induction autoLoadList generalizing memory start with
  | nil => exact wild
  | cons rtldModule rest ih =>
    refine ih ?_ (start + 1)
    rw [wild_assign]
    exact (Keeps.touch memory _).wild wild

/-- The collected modules, in the order of the loader's list. -/
theorem collectModules_spec (static : StaticModules memory block) (start : ℕ)
    (bound : start ≤ cMaxModuleNum)
    (quiet : (collectModules (block, 0) autoLoadList start memory).wild = false) :
    StaticModules (collectModules (block, 0) autoLoadList start memory) block ∧
    start + autoLoadList.length ≤ cMaxModuleNum ∧
    (∀ i < start, (collectModules (block, 0) autoLoadList start memory).read (block, i) =
      memory.read (block, i)) ∧
    ∃ xs : List (ListedModule M), xs.map (·.mModule) = autoLoadList ∧
      ∀ i x, xs[i]? = some x →
        (collectModules (block, 0) autoLoadList start memory).read (block, start + i) = some x := by
  induction autoLoadList generalizing memory start with
  | nil => exact ⟨static, bound, fun _ _ => rfl, [], rfl, nofun⟩
  | cons rtldModule rest ih =>
    rw [collectModules] at quiet ⊢
    simp only [Address.offset, Nat.zero_add] at quiet ⊢
    set next := assign memory (block, start) fun module => { module with mModule := rtldModule }
      with next_eq
    have inside : start < cMaxModuleNum := by
      by_contra outside
      have wild : next.wild = true := by
        rw [next_eq, wild_assign]
        simp [Memory.touch, static.valid_iff, outside]
      rw [wild_collectModules wild] at quiet
      cases quiet
    obtain ⟨module, here⟩ := static.held start inside
    obtain ⟨static', length, kept, xs, mapped, held⟩ :=
      ih (static.assign inside) (start + 1) inside quiet
    refine ⟨static', by rw [List.length_cons]; omega, fun i early => ?_,
      { module with mModule := rtldModule } :: xs, by rw [List.map_cons, mapped],
      fun i x there => ?_⟩
    · rw [kept i (by omega)]
      exact read_assign_of_ne (by simp; omega)
    · cases i with
      | zero =>
        obtain rfl := Option.some.inj there
        have written : next.read (block, start) = some { module with mModule := rtldModule } := by
          rw [next_eq, read_assign_self, here]
          rfl
        exact (kept start (Nat.lt_succ_self start)).trans written
      | succ i =>
        have place : start + (i + 1) = start + 1 + i := by omega
        rw [place]
        exact held i x there

end Collect

section Order

/-- The base of a module, if there is one. -/
def base (loader : Loader M) (module : ListedModule M) : Ptr := module.mModule.elim 0 loader.m_Base

theorem compareBase_agrees (a b : ListedModule M) (less : Bool)
    (compared : compareBase loader a b = some less) :
    decide (base loader a < base loader b) = less := by
  rw [compareBase] at compared
  split at compared
  case h_1 first second here there =>
    split_ifs at compared
    rw [base, base, here, there]
    exact Option.some.inj compared
  case h_2 => cases compared

instance : IsStrictWeakOrder (ListedModule M)
    fun a b => decide (base loader a < base loader b) = true where
  irrefl a := by simp
  trans a b c := by
    simp only [decide_eq_true_eq]
    exact BitVec.lt_trans
  incomp_trans a b c := by
    simp only [decide_eq_true_eq]
    rintro ⟨first, second⟩ ⟨third, fourth⟩
    constructor <;> bv_omega

end Order

section Prepare

variable [DecidableEq M] {fuel : ℕ} {list list' : ModuleList M}

/-- What a round does where it returns. -/
theorem prepareModule_cases {i : ℕ}
    (run : prepareModule loader fuel sModules list i = some list') :
    ∃ module m mapped self, list.memory.read (sModules.offset i) = some module ∧
      module.mModule = some m ∧ list' = {
        memory := assign (list.memory.touch (sModules.offset i)) (sModules.offset i)
          fun module => { module with toLoadedModule := mapped }
        sNumModules := list.sNumModules
        sSelfModuleIdx := self } := by
  simp only [prepareModule, Option.bind_eq_bind, Option.bind_eq_some_iff] at run
  obtain ⟨module, here, m, valid, run⟩ := run
  split_ifs at run
  all_goals
    simp only [Option.bind_eq_some_iff, Option.some.injEq] at run
    obtain ⟨found, -, mapped, -, same⟩ := run
    exact ⟨module, m, mapped, _, here, valid, same.symm⟩

/-- All rounds: the modules are valid, and stay where they are. -/
theorem prepareModules_spec {indices : List ℕ}
    (run : indices.foldlM (prepareModule loader fuel sModules) list = some list') :
    list'.sNumModules = list.sNumModules ∧
    (list.memory.wild = true → list'.memory.wild = true) ∧
    (∀ other, (list'.memory.read other).map (·.mModule) =
      (list.memory.read other).map (·.mModule)) ∧
    ∀ i ∈ indices, ∃ m,
      (list.memory.read (sModules.offset i)).map (·.mModule) = some (some m) := by
  induction indices generalizing list with
  | nil =>
    obtain rfl := Option.some.inj run
    exact ⟨rfl, id, fun _ => rfl, nofun⟩
  | cons i rest ih =>
    rw [List.foldlM_cons, Option.bind_eq_bind, Option.bind_eq_some_iff] at run
    obtain ⟨between, first, rest⟩ := run
    obtain ⟨module, m, mapped, self, here, valid, rfl⟩ := prepareModule_cases first
    obtain ⟨count, wild, same, others⟩ := ih rest
    have still (other : Address) : ((assign (list.memory.touch (sModules.offset i))
        (sModules.offset i) fun module => { module with toLoadedModule := mapped }).read other).map
          (·.mModule) = (list.memory.read other).map (·.mModule) := by
      by_cases place : other = sModules.offset i
      · rw [place, read_assign_self, read_touch, Option.map_map]
        rfl
      · rw [read_assign_of_ne place, read_touch]
    refine ⟨count, fun before => wild ?_, fun other => (same other).trans (still other),
      fun j member => ?_⟩
    · rw [wild_assign]
      exact ((Keeps.touch _ _).trans (Keeps.touch _ _)).wild before
    · rcases List.mem_cons.mp member with rfl | member
      · exact ⟨m, by rw [here, Option.map_some, valid]⟩
      · obtain ⟨m, there⟩ := others j member
        exact ⟨m, (still _).symm.trans there⟩

end Prepare

section Lists

variable [DecidableEq M] {fuel : ℕ} {list list' : ModuleList M}

/-- The modules of an array in the order of their bases. -/
structure Ascending (loader : Loader M) (memory : Machine.Memory (ListedModule M)) (block : ℕ)
    (modules : List M) : Prop where
  sorted : modules.Pairwise fun first second => loader.m_Base first ≤ loader.m_Base second
  placed : ∀ i m, modules[i]? = some m →
    ∃ module, memory.read (block, i) = some module ∧ module.mModule = some m

theorem initModuleList_spec (static : StaticModules list.memory block)
    (run : initModuleList loader fuel (block, 0) autoLoadList list = some list')
    (quiet : list'.memory.wild = false) :
    ∃ modules : List M, (modules.map some).Perm autoLoadList ∧
      list'.sNumModules = modules.length ∧ Ascending loader list'.memory block modules := by
  simp only [initModuleList, Option.bind_eq_bind, Option.bind_eq_some_iff] at run
  obtain ⟨sorted, sort, last, prepare, done⟩ := run
  obtain rfl : last = list' := by
    split_ifs at done
    exact Option.some.inj done
  obtain ⟨count, wild, same, valid⟩ := prepareModules_spec prepare
  have quiet' : (collectModules (block, 0) autoLoadList 0 list.memory).wild = false := by
    by_contra dirty
    rw [Bool.not_eq_false] at dirty
    rw [wild (insertionSort_wild dirty sort)] at quiet
    cases quiet
  obtain ⟨static', bound, -, xs, rfl, held⟩ :=
    collectModules_spec static 0 (Nat.zero_le _) quiet'
  rw [List.length_map] at sort prepare valid count bound
  have holds : Holds (collectModules (block, 0) (xs.map (·.mModule)) 0 list.memory) (block, 0) xs :=
    ⟨fun i inside => static'.valid_iff.mpr (by omega), held⟩
  have sorts : SortsInPlace (ListedModule.objectType M)
      (fun a b => decide (base loader a < base loader b)) _ (block, 0) xs :=
    sortsInPlace static'.usable holds
  obtain ⟨ys, after, sort', -, holds', perm, order, -⟩ := sorts
  obtain rfl : sorted = after :=
    Option.some.inj ((insertionSort_of_agrees compareBase_agrees sort).symm.trans sort')
  have named : ∀ x ∈ ys.map (·.mModule), x ∈ Set.range some := by
    intro x member
    obtain ⟨i, bound, rfl⟩ := List.getElem_of_mem member
    rw [List.length_map] at bound
    obtain ⟨m, there⟩ := valid i (List.mem_range.mpr (perm.length_eq ▸ bound))
    rw [holds'.value i ys[i] (List.getElem?_eq_getElem bound), Option.map_some] at there
    rw [List.getElem_map, Option.some.inj there]
    exact ⟨m, rfl⟩
  obtain ⟨modules, modules_eq⟩ : ys.map (·.mModule) ∈ Set.range (List.map some) := by
    rw [Set.range_list_map]
    exact named
  have length : modules.length = ys.length := by simpa using congrArg List.length modules_eq
  refine ⟨modules, modules_eq ▸ perm.map _, ?_, ?_, fun i m there => ?_⟩
  · rw [count, length, perm.length_eq]
  · have bases : (ys.map (·.mModule)).Pairwise
        fun a b => a.elim 0 loader.m_Base ≤ b.elim 0 loader.m_Base :=
      List.pairwise_map.mpr (order.imp fun less => BitVec.not_lt.mp (of_decide_eq_false less))
    rw [← modules_eq] at bases
    exact (List.pairwise_map (f := some)).mp bases
  · have mapped : (ys.map (·.mModule))[i]? = some (some m) := by
      rw [← modules_eq, List.getElem?_map, there]
      rfl
    rw [List.getElem?_map, Option.map_eq_some_iff] at mapped
    obtain ⟨y, here, named⟩ := mapped
    have kept := same (block, i)
    have place : sorted.read (block, i) = some y := by
      have := holds'.value i y here
      rwa [Address.offset, Nat.zero_add] at this
    rw [place, Option.map_some, Option.map_eq_some_iff] at kept
    obtain ⟨module, final, equal⟩ := kept
    exact ⟨module, final, equal.trans named⟩

end Lists

/-- Arrays of any type are sorted in place by every strict weak order, and `initModuleList` leaves
the modules of the loader in the order of their bases. -/
theorem insertionSort_sorts :
    (∀ {T : Type} (type : ObjectType T) (less : T → T → Bool)
      [IsStrictWeakOrder T fun a b => less a b = true] (memory : Machine.Memory T)
      (values : Address) (xs : List T), Usable type memory → Holds memory values xs →
        SortsInPlace type less memory values xs) ∧
    ∀ {M : Type} [DecidableEq M] (loader : Loader M) (fuel block : ℕ)
      (autoLoadList : List (Option M)) (list list' : ModuleList M),
      StaticModules list.memory block →
      initModuleList loader fuel (block, 0) autoLoadList list = some list' →
      list'.memory.wild = false →
        ∃ modules : List M, (modules.map some).Perm autoLoadList ∧
          list'.sNumModules = modules.length ∧ Ascending loader list'.memory block modules :=
  ⟨fun _ _ _ _ _ _ usable holds => sortsInPlace usable holds,
    fun _ _ _ _ _ _ static run quiet => initModuleList_spec static run quiet⟩

section Witness

/-- Numbers that are set to zero when they are moved from. -/
def counted : ObjectType ℕ where
  trivial := false
  moved _ := 0
  sizeOf := 8
  moved_of_trivial impossible := Bool.noConfusion impossible
  sizeOf_pos := Nat.add_one_pos 7

def threeNumbers : Machine.Memory ℕ :=
  ((((({} : Machine.Memory ℕ).allocate 3).2.construct counted (1, 0) (some 3)).construct counted
    (1, 1) (some 1)).construct counted (1, 2) (some 2))

theorem threeNumbers_usable : Usable counted threeNumbers where
  used := by decide
  sound _ := (((Sound.empty.allocate 3).construct (by decide) (not_not.mpr rfl) _).construct
    (by decide) (not_not.mpr rfl) _).construct (by decide) (not_not.mpr rfl) _
  fresh := nofun

theorem threeNumbers_holds : Holds threeNumbers (1, 0) [3, 1, 2] where
  valid := by decide
  value i x there := by
    match i, there with
    | 0, there | 1, there | 2, there => exact there

/-- Two modules of three pages each. -/
def twoModules : Loader Bool where
  m_Base isMain := if isMain then 0x8000 else 0x4000
  hkRtldModule := false
  queryMemory address := some
    ⟨address &&& ~~~0xfff, 0x1000, match (address >>> 12).toNat % 4 with
      | 0 => .ReadExecute
      | 1 => .Read
      | _ => .ReadWrite⟩
  mapRoToRw address _ := .ok (address + 0x100000)

def emptyList : ModuleList Bool where
  memory := {
    slots := fun address =>
      if address.1 = 1 ∧ address.2 < cMaxModuleNum then
        some ⟨some ⟨⟨⟨{}, {}, {}, {}⟩, {}⟩, none⟩, address.2⟩
      else none
    blocks := [0, cMaxModuleNum]
    constructed := cMaxModuleNum }
  sNumModules := 0
  sSelfModuleIdx := none

theorem emptyList_static : StaticModules emptyList.memory 1 where
  size := rfl
  kept := nofun
  held i bound := ⟨_, by rw [read_of_slots (if_pos ⟨rfl, bound⟩)]⟩
  usable := ⟨rfl, nofun, nofun⟩

theorem insertionSort_sorts_two :
    SortsInPlace counted (fun a b => decide (a < b)) threeNumbers (1, 0) [3, 1, 2] ∧
    ∃ list' modules, initModuleList twoModules 2 (1, 0) [some true, some false] emptyList =
        some list' ∧ (modules.map some).Perm [some true, some false] ∧
      list'.sNumModules = modules.length ∧ Ascending twoModules list'.memory 1 modules := by
  have order : IsStrictWeakOrder ℕ fun a b => decide (a < b) = true :=
    { irrefl := by simp
      trans := by simpa using fun a b c => Nat.lt_trans
      incomp_trans := by simp; omega }
  refine ⟨insertionSort_sorts.1 _ _ _ _ _ threeNumbers_usable threeNumbers_holds, ?_⟩
  have ran : (initModuleList twoModules 2 (1, 0) [some true, some false] emptyList).map
      (·.memory.wild) = some false := by rfl
  obtain ⟨list', run, quiet⟩ := Option.map_eq_some_iff.mp ran
  obtain ⟨modules, perm, length, ascending⟩ :=
    insertionSort_sorts.2 twoModules 2 1 _ emptyList list' emptyList_static run quiet
  exact ⟨list', modules, run, perm, length, ascending⟩

end Witness

end Hakkun.Ro
