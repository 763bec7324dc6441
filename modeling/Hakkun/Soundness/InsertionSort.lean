import Hakkun.Math.Insertion
import Hakkun.Model.Util.Sort
import Hakkun.Soundness.Construct
import Mathlib.Order.Defs.Unbundled

/-! # Insertion sort in place

An element leaves a hole that moves to the left, past everything that is not before the element. At
every step the hole is an object that was moved from, so each round replaces live objects by live
objects; what it does to the values is an insertion into the part of the array that is sorted.
-/

namespace Hakkun.Util

open Machine Machine.Memory

variable {T : Type} {type : ObjectType T} {memory between after : Memory T}
  {dest src other values rhs : Address} {cmp : T → T → Option Bool} {less : T → T → Bool}

/-- Nothing was misused, and the lifetimes of objects that have one are sound. -/
structure Usable (type : ObjectType T) (memory : Memory T) : Prop where
  used : memory.misused = false
  sound : type.trivial = false → Sound memory
  fresh : ∀ block ∈ memory.freed, block < memory.blocks.length

/-- The same slots hold objects, and the memory is as usable as before. -/
structure Steady (type : ObjectType T) (memory after : Memory T) : Prop where
  calm : Calm memory after
  live : ∀ address, after.Live address ↔ memory.Live address
  usable : Usable type memory → Usable type after

theorem Usable.of_calm (usable : Usable type memory) (calm : Calm memory after)
    (used : after.misused = false) (sound : type.trivial = false → Sound after) :
    Usable type after := by
  refine ⟨used, sound, fun block freed => ?_⟩
  rw [calm.freed] at freed
  rw [calm.blocks]
  exact usable.fresh block freed

namespace Steady

theorem refl (memory : Memory T) : Steady type memory memory :=
  ⟨Calm.refl memory, fun _ => Iff.rfl, id⟩

theorem trans (first : Steady type memory between) (second : Steady type between after) :
    Steady type memory after :=
  ⟨first.calm.trans second.calm, fun address => (second.live address).trans (first.live address),
    second.usable ∘ first.usable⟩

theorem touch (valid : memory.Valid other) (live : memory.Live other) :
    Steady type memory (memory.touch other) := by
  have calm : Calm memory (memory.touch other) := Calm.touch valid
  refine ⟨calm, fun _ => Iff.rfl, fun usable => ?_⟩
  refine usable.of_calm calm ?_ fun observed => (usable.sound observed).touch live
  obtain ⟨object, held⟩ := Option.ne_none_iff_exists'.mp live
  simp [Memory.touch, usable.used, held]

end Steady

section Moves

theorem slots_moveAt_of_ne (different : other ≠ dest) (apart : other ≠ src) :
    (constructAt type memory dest (.element src) true).slots other = memory.slots other := by
  rw [constructAt_element, if_pos rfl, slots_retire_of_ne apart]
  exact slots_construct_of_ne different _

theorem live_moveAt (valid : memory.Valid dest) :
    (constructAt type memory dest (.element src) true).Live other ↔
      other = dest ∨ memory.Live other := by
  have touched : (memory.touch src).Valid dest := valid
  rw [constructAt_element, if_pos rfl, live_retire]
  exact live_construct touched _

theorem calm_moveAt (valid : memory.Valid dest) (source : memory.Valid src) :
    Calm memory (constructAt type memory dest (.element src) true) :=
  calm_constructAt valid (show Reference.Valid memory (.element src) from source) true

/-- An object is moved into a slot that has none, or whose object has no lifetime. -/
theorem usable_moveAt (usable : Usable type memory) (valid : memory.Valid dest)
    (dead : type.trivial = false → ¬ memory.Live dest) (source : memory.Valid src)
    (live : memory.Live src) : Usable type (constructAt type memory dest (.element src) true) := by
  have moved (observed : type.trivial = false) :
      Sound (constructAt type memory dest (.element src) true) :=
    (sound_constructAt type (usable.sound observed) valid (dead observed)
      (show Reference.Live memory (.element src) from live) true).1
  refine usable.of_calm (calm_moveAt valid source) ?_ moved
  cases kind : type.trivial with
  | false => exact (moved kind).used
  | true =>
    obtain ⟨object, held⟩ := Option.ne_none_iff_exists'.mp live
    have touched : (memory.touch src).Valid dest := valid
    change (Memory.construct type (memory.touch src) dest (memory.read src)).misused = false
    rw [Memory.construct, if_pos touched]
    simp [Memory.touch, usable.used, held, kind]

theorem read_replace_self (valid : memory.Valid dest) (apart : dest ≠ src) :
    (replace type memory dest src).read dest = memory.read src := by
  have gone : Calm memory (memory.destroy type dest) := Calm.destroy valid
  have place := (gone.valid_iff dest).mpr valid
  rw [replace, read_moveAt_self place apart, read_destroy_of_ne apart.symm]

theorem slots_replace_of_ne (different : other ≠ dest) (apart : other ≠ src) :
    (replace type memory dest src).slots other = memory.slots other := by
  rw [replace, slots_moveAt_of_ne different apart, slots_destroy_of_ne different]

variable (type) in
theorem steady_replace (apart : dest ≠ src) (valid : memory.Valid dest) (there : memory.Live dest)
    (source : memory.Valid src) (live : memory.Live src) :
    Steady type memory (replace type memory dest src) := by
  have gone : Calm memory (memory.destroy type dest) := Calm.destroy valid
  have place := (gone.valid_iff dest).mpr valid
  have source' := (gone.valid_iff src).mpr source
  have live' : (memory.destroy type dest).Live src :=
    (live_congr (slots_destroy_of_ne apart.symm)).mpr live
  refine ⟨gone.trans (calm_moveAt place source'), fun address => ?_, fun usable => ?_⟩
  · rw [replace, live_moveAt place]
    constructor
    · rintro (rfl | kept)
      · exact there
      · by_contra dead
        have same : address ≠ dest := fun same => dead (same ▸ there)
        exact dead ((live_congr (slots_destroy_of_ne same)).mp kept)
    · intro kept
      by_cases same : address = dest
      · exact .inl same
      · exact .inr ((live_congr (slots_destroy_of_ne same)).mpr kept)
  · have dead (observed : type.trivial = false) : ¬ (memory.destroy type dest).Live dest :=
      fun kept => ((live_destroy observed valid).mp kept).1 rfl
    refine usable_moveAt (usable.of_calm gone ?_ fun observed =>
      (usable.sound observed).destroy observed there) place dead source' live'
    cases kind : type.trivial with
    | false => exact ((usable.sound kind).destroy kind there).used
    | true =>
      rw [destroy_of_trivial kind]
      exact usable.used

end Moves

section Shift

/-- What the inner loop does, from the slot where it starts to the hole that it leaves. -/
structure Shifted (type : ObjectType T) (less : T → T → Bool) (values : Address) (value : T)
    (start : ℕ) (memory : Memory T) (hole : ℕ) (after : Memory T) : Prop where
  bound : hole ≤ start
  steady : Steady type memory after
  moved : ∀ i, hole ≤ i → i < start →
    after.read (values.offset (i + 1)) = memory.read (values.offset i)
  frame : ∀ other, (∀ i, hole ≤ i → i ≤ start → other ≠ values.offset i) →
    after.slots other = memory.slots other
  above : ∀ i x, hole ≤ i → i < start → memory.read (values.offset i) = some x →
    less x value = false
  below : ∀ i, i + 1 = hole → ∃ x, memory.read (values.offset i) = some x ∧ less x value = true

theorem live_of_read {x : T} (held : memory.read other = some x) : memory.Live other := by
  intro dead
  rw [Memory.read, dead] at held
  cases held

theorem offset_ne {i j : ℕ} (different : i ≠ j) : values.offset i ≠ values.offset j :=
  fun same => different (offset_injective same)

theorem compare_eq {x y : T} (total : ∀ a b, cmp a b = some (less a b))
    (held : memory.read dest = some x) (held' : memory.read src = some y) :
    compare cmp memory dest src = some (less x y, (memory.touch dest).touch src) := by
  simp [compare, held, held', total]

variable (type) in
/-- The inner loop for a value that is in a slot elsewhere. -/
theorem shifted_shift {value : T} {start : ℕ} (total : ∀ a b, cmp a b = some (less a b))
    (elsewhere : ∀ i, rhs ≠ values.offset i) (local_ : memory.Valid rhs)
    (key : memory.read rhs = some value)
    (valid : ∀ i ≤ start, memory.Valid (values.offset i))
    (live : ∀ i ≤ start, memory.Live (values.offset i))
    (held : ∀ i < start, ∃ x, memory.read (values.offset i) = some x) :
    ∃ hole after, shift type cmp values rhs start memory = some (hole, after) ∧
      Shifted type less values value start memory hole after := by
  induction start generalizing memory with
  | zero =>
    refine ⟨0, memory, rfl, Nat.le_refl 0, Steady.refl memory, fun _ _ early => ?_, fun _ _ => rfl,
      fun _ _ _ early => ?_, fun _ => nofun⟩
    · exact absurd early (Nat.not_lt_zero _)
    · exact absurd early (Nat.not_lt_zero _)
  | succ start ih =>
    obtain ⟨x, here⟩ := held start (Nat.lt_succ_self start)
    have first : Steady type memory (memory.touch (values.offset start)) :=
      Steady.touch (valid start (Nat.le_succ start)) (live start (Nat.le_succ start))
    have touched : Steady type memory ((memory.touch (values.offset start)).touch rhs) :=
      first.trans (Steady.touch ((first.calm.valid_iff rhs).mpr local_) (live_of_read key))
    rw [shift, compare_eq total here key]
    cases order : less x value with
    | true =>
      refine ⟨start + 1, _, rfl, Nat.le_refl _, touched, fun i late early => ?_, fun _ _ => rfl,
        fun i _ late early => ?_, fun i last => ?_⟩
      · omega
      · omega
      · obtain rfl := Nat.succ.inj last
        exact ⟨x, here, order⟩
    | false =>
      have apart : values.offset (start + 1) ≠ values.offset start := offset_ne (by omega)
      have replaced := steady_replace type apart
        ((touched.calm.valid_iff _).mpr (valid _ (Nat.le_refl _)))
        ((touched.live _).mpr (live _ (Nat.le_refl _)))
        ((touched.calm.valid_iff _).mpr (valid _ (Nat.le_succ start)))
        ((touched.live _).mpr (live _ (Nat.le_succ start)))
      set next := replace type ((memory.touch (values.offset start)).touch rhs)
        (values.offset (start + 1)) (values.offset start) with next_eq
      have steady : Steady type memory next := touched.trans replaced
      have slots {other : Address} (different : other ≠ values.offset (start + 1))
          (apart : other ≠ values.offset start) : next.slots other = memory.slots other :=
        slots_replace_of_ne different apart
      have before {i : ℕ} (early : i < start) :
          next.read (values.offset i) = memory.read (values.offset i) :=
        read_congr (slots (offset_ne (by omega)) (offset_ne (by omega)))
      have hop : next.read (values.offset (start + 1)) = memory.read (values.offset start) :=
        read_replace_self ((touched.calm.valid_iff _).mpr (valid _ (Nat.le_refl _))) apart
      obtain ⟨hole, after, run, shifted⟩ := @ih next
        ((steady.calm.valid_iff rhs).mpr local_)
        ((read_congr (slots (elsewhere _) (elsewhere _))).trans key)
        (fun i bound => (steady.calm.valid_iff _).mpr (valid i (Nat.le_succ_of_le bound)))
        (fun i bound => (steady.live _).mpr (live i (Nat.le_succ_of_le bound)))
        (fun i bound => (before bound).symm ▸ held i (Nat.lt_succ_of_lt bound))
      refine ⟨hole, after, run, Nat.le_succ_of_le shifted.bound, steady.trans shifted.steady,
        fun i late early => ?_, fun other outside => ?_, fun i y late early there => ?_,
        fun i last => ?_⟩
      · rcases Nat.lt_succ_iff_lt_or_eq.mp early with earlier | rfl
        · rw [shifted.moved i late earlier, before earlier]
        · rw [← hop]
          exact read_congr (shifted.frame _ fun j _ bound => offset_ne (by omega))
      · rw [shifted.frame other fun i late bound => outside i late (Nat.le_succ_of_le bound)]
        have := shifted.bound
        exact slots (outside _ (by omega) (Nat.le_refl _)) (outside _ this (Nat.le_succ start))
      · rcases Nat.lt_succ_iff_lt_or_eq.mp early with earlier | rfl
        · exact shifted.above i y late earlier ((before earlier).trans there)
        · obtain rfl := Option.some.inj (here.symm.trans there)
          exact order
      · have := shifted.bound
        rw [← before (by omega)]
        exact shifted.below i last

end Shift

section Locals

variable {block : ℕ}

/-- A block with one slot for a local object. -/
theorem valid_allocate (usable : Usable type memory) :
    (memory.allocate 1).2.Valid (memory.blocks.length, 0) := by
  refine ⟨?_, fun freed => Nat.lt_irrefl _ (usable.fresh _ freed)⟩
  simp [allocate]

theorem block_lt (valid : memory.Valid other) : other.1 < memory.blocks.length := by
  by_contra outside
  have inside := valid.1
  rw [List.getElem?_eq_none (by omega)] at inside
  exact absurd inside (Nat.not_lt_zero _)

theorem valid_allocate_of_valid (valid : memory.Valid other) (count : ℕ) :
    (memory.allocate count).2.Valid other := by
  refine ⟨?_, valid.2⟩
  change other.2 < (memory.blocks ++ [count])[other.1]?.getD 0
  rw [List.getElem?_append_left (block_lt valid)]
  exact valid.1

theorem valid_allocate_new {i : ℕ} (valid : (memory.allocate 1).2.Valid (memory.blocks.length, i)) :
    i = 0 := by
  have inside := valid.1
  simp only [allocate, List.getElem?_concat_length, Option.getD_some] at inside
  omega

theorem usable_allocate (usable : Usable type memory) : Usable type (memory.allocate 1).2 := by
  refine ⟨usable.used, fun observed => (usable.sound observed).allocate 1, fun block freed => ?_⟩
  have bound := usable.fresh block freed
  change block < (memory.blocks ++ [1]).length
  rw [List.length_append]
  omega

/-- The end of a local object. -/
theorem usable_leave (usable : Usable type memory) (valid : memory.Valid (block, 0))
    (single : ∀ i, memory.Valid (block, i) → i = 0) (live : memory.Live (block, 0)) :
    Usable type ((memory.destroy type (block, 0)).free block) := by
  have calm : Calm memory (memory.destroy type (block, 0)) := Calm.destroy valid
  refine ⟨?_, fun observed => ?_, fun other freed => ?_⟩
  · cases kind : type.trivial with
    | false => exact ((usable.sound kind).destroy kind live).used
    | true =>
      rw [destroy_of_trivial kind]
      exact usable.used
  · refine ((usable.sound observed).destroy observed live).free fun i kept => ?_
    obtain ⟨away, there⟩ := (live_destroy observed valid).mp kept
    exact away (by rw [single i ((usable.sound observed).placed _ there)])
  · change other ∈ block :: (memory.destroy type (block, 0)).freed at freed
    change other < (memory.destroy type (block, 0)).blocks.length
    rw [calm.freed] at freed
    rw [calm.blocks]
    rcases List.mem_cons.mp freed with rfl | freed
    · exact block_lt valid
    · exact usable.fresh other freed

theorem slots_leave (elsewhere : other.1 ≠ block) :
    ((memory.destroy type (block, 0)).free block).slots other = memory.slots other := by
  have kept : ((memory.destroy type (block, 0)).free block).slots other =
      (memory.destroy type (block, 0)).slots other := if_neg elsewhere
  rw [kept, slots_destroy_of_ne fun same => elsewhere (congrArg Prod.fst same)]

theorem valid_leave (valid : memory.Valid (block, 0)) (elsewhere : other.1 ≠ block) :
    ((memory.destroy type (block, 0)).free block).Valid other ↔ memory.Valid other := by
  have calm : Calm memory (memory.destroy type (block, 0)) := Calm.destroy valid
  rw [← calm.valid_iff other]
  simp [Valid, free, elsewhere]

end Locals

section Rounds

/-- Consecutive objects with these values. -/
structure Holds (memory : Memory T) (values : Address) (xs : List T) : Prop where
  valid : ∀ i < xs.length, memory.Valid (values.offset i)
  value : ∀ i x, xs[i]? = some x → memory.read (values.offset i) = some x

/-- Nothing but the objects of an array is different afterwards. -/
structure Confined (values : Address) (length : ℕ) (memory after : Memory T) : Prop where
  wild : after.wild = memory.wild
  valid : ∀ address, memory.Valid address → after.Valid address
  live : ∀ address, memory.Valid address → (after.Live address ↔ memory.Live address)
  slots : ∀ address, memory.Valid address → Outside values length address →
    after.slots address = memory.slots address

theorem Confined.refl {length : ℕ} (memory : Memory T) : Confined values length memory memory :=
  ⟨rfl, fun _ => id, fun _ _ => Iff.rfl, fun _ _ _ => rfl⟩

theorem Confined.trans {length : ℕ} (first : Confined values length memory between)
    (second : Confined values length between after) : Confined values length memory after := by
  refine ⟨second.wild.trans first.wild, fun address valid => second.valid _ (first.valid _ valid),
    fun address valid => ?_, fun address valid outside => ?_⟩
  · exact (second.live _ (first.valid _ valid)).trans (first.live _ valid)
  · exact (second.slots _ (first.valid _ valid) outside).trans (first.slots _ valid outside)

/-- The array after a round: an element is inserted into those before it. -/
def inserted (xs : List T) (k hole : ℕ) (x : T) : List T :=
  (xs.take k).insertIdx hole x ++ xs.drop (k + 1)

variable {xs : List T} {k hole : ℕ} {x : T}

theorem length_insertIdx_take (bound : hole ≤ k) (inside : k < xs.length) :
    ((xs.take k).insertIdx hole x).length = k + 1 := by
  rw [List.length_insertIdx_of_le_length (by simp; omega)]
  simp; omega

theorem inserted_perm (bound : hole ≤ k) (there : xs[k]? = some x) :
    (inserted xs k hole x).Perm xs := by
  obtain ⟨inside, rfl⟩ := List.getElem?_eq_some_iff.mp there
  have front : ((xs.take k).insertIdx hole xs[k]).Perm (xs[k] :: xs.take k) :=
    List.perm_insertIdx _ _ (by simp; omega)
  have middle : xs.take k ++ xs[k] :: xs.drop (k + 1) = xs := by
    rw [← List.drop_eq_getElem_cons inside, List.take_append_drop]
  have moved : (xs[k] :: xs.take k ++ xs.drop (k + 1)).Perm
      (xs.take k ++ xs[k] :: xs.drop (k + 1)) := List.perm_middle.symm
  rw [middle] at moved
  exact (front.append_right _).trans moved

theorem take_inserted (bound : hole ≤ k) (inside : k < xs.length) :
    (inserted xs k hole x).take (k + 1) = (xs.take k).insertIdx hole x := by
  have length := length_insertIdx_take (x := x) bound inside
  rw [inserted, List.take_append_of_le_length (Nat.le_of_eq length.symm)]
  exact List.take_of_length_le (Nat.le_of_eq length)

theorem getElem?_inserted (bound : hole ≤ k) (inside : k < xs.length) (i : ℕ) :
    (inserted xs k hole x)[i]? =
      if i < hole then xs[i]? else if i = hole then some x
      else if i ≤ k then xs[i - 1]? else xs[i]? := by
  rw [inserted, List.getElem?_append, length_insertIdx_take bound inside, List.getElem?_insertIdx,
    List.length_take, List.getElem?_drop]
  simp only [List.getElem?_take]
  split_ifs <;> first | rfl | omega | (congr 1; omega)

/-- The order of the sorted part, where the hole is behind what is before the element. -/
theorem pairwise_inserted [IsStrictOrder T fun a b => less a b = true]
    (sorted : (xs.take k).Pairwise fun a b => less b a = false) (bound : hole ≤ k)
    (inside : k < xs.length)
    (above : ∀ i y, hole ≤ i → i < k → xs[i]? = some y → less y x = false)
    (below : ∀ i, i + 1 = hole → ∃ y, xs[i]? = some y ∧ less y x = true) :
    ((inserted xs k hole x).take (k + 1)).Pairwise fun a b => less b a = false := by
  rw [take_inserted bound inside]
  refine Math.pairwise_insertIdx sorted (by simp; omega) (fun a member => ?_) fun a member => ?_
  · obtain ⟨j, early, there⟩ := List.mem_take_iff_getElem.mp member
    obtain ⟨last, rfl⟩ : ∃ last, hole = last + 1 := ⟨hole - 1, by omega⟩
    obtain ⟨y, here, order⟩ := below last rfl
    have last_eq : (xs.take k)[last]? = some y := by
      rw [List.getElem?_take_of_lt (by omega)]
      exact here
    obtain ⟨small, rfl⟩ := List.getElem?_eq_some_iff.mp last_eq
    -- what is before the hole is not behind its last element, which is before the new one
    have behind : less (xs.take k)[last] a = false ∨ a = (xs.take k)[last] := by
      rcases Nat.lt_or_ge j last with earlier | later
      · exact .inl (there ▸ List.pairwise_iff_getElem.mp sorted j last (by omega) small earlier)
      · obtain rfl : j = last := by omega
        exact .inr there.symm
    by_contra wrong
    rw [Bool.not_eq_false] at wrong
    have cycle : less (xs.take k)[last] a = true :=
      trans_of (fun a b => less a b = true) order wrong
    rcases behind with no | rfl
    · rw [no] at cycle
      cases cycle
    · exact irrefl_of (fun a b => less a b = true) _ cycle
  · obtain ⟨j, late, there⟩ := List.mem_drop_iff_getElem.mp member
    have early : hole + j < k := by
      rw [List.length_take] at late
      omega
    refine above (hole + j) a (Nat.le_add_right _ _) early ?_
    rw [List.getElem_take] at there
    exact there ▸ List.getElem?_eq_getElem _

theorem Holds.live (holds : Holds memory values xs) {i : ℕ} (bound : i < xs.length) :
    memory.Live (values.offset i) :=
  live_of_read (holds.value i xs[i] (List.getElem?_eq_getElem bound))

/-- The memory of a round with its element in the local object. -/
structure Taken (values rhs : Address) (xs : List T) (k : ℕ) (x : T) (memory : Memory T) :
    Prop where
  elsewhere : ∀ i, rhs ≠ values.offset i
  localValid : memory.Valid rhs
  key : memory.read rhs = some x
  valid : ∀ i < xs.length, memory.Valid (values.offset i)
  live : ∀ i < xs.length, memory.Live (values.offset i)
  value : ∀ i y, i ≠ k → xs[i]? = some y → memory.read (values.offset i) = some y

variable (type) in
/-- The inner loop and the end of the hole. -/
theorem Taken.fill (total : ∀ a b, cmp a b = some (less a b)) (inside : k < xs.length)
    (taken : Taken values rhs xs k x memory) :
    ∃ hole between, shift type cmp values rhs k memory = some (hole, between) ∧ hole ≤ k ∧
      (∀ i y, hole ≤ i → i < k → xs[i]? = some y → less y x = false) ∧
      (∀ i, i + 1 = hole → ∃ y, xs[i]? = some y ∧ less y x = true) ∧
      Steady type memory (replace type between (values.offset hole) rhs) ∧
      (∀ i y, (inserted xs k hole x)[i]? = some y →
        (replace type between (values.offset hole) rhs).read (values.offset i) = some y) ∧
      ∀ other, other ≠ rhs → Outside values xs.length other →
        (replace type between (values.offset hole) rhs).slots other = memory.slots other := by
  have known {i : ℕ} (early : i < k) :
      ∃ y, xs[i]? = some y ∧ memory.read (values.offset i) = some y := by
    have there := List.getElem?_eq_getElem (show i < xs.length by omega)
    exact ⟨_, there, taken.value i _ (by omega) there⟩
  obtain ⟨hole, between, run, shifted⟩ := shifted_shift type total taken.elsewhere
    taken.localValid taken.key (fun i _ => taken.valid i (by omega))
    (fun i _ => taken.live i (by omega)) fun i early => (known early).imp fun _ => And.right
  have bound := shifted.bound
  have apart : values.offset hole ≠ rhs := (taken.elsewhere hole).symm
  have place := (shifted.steady.calm.valid_iff _).mpr (taken.valid hole (by omega))
  have kept : between.slots rhs = memory.slots rhs :=
    shifted.frame rhs fun i _ _ => taken.elsewhere i
  refine ⟨hole, between, run, bound, fun i y late early there => ?_, fun i last => ?_,
    shifted.steady.trans (steady_replace type apart place
      ((shifted.steady.live _).mpr (taken.live hole (by omega)))
      ((shifted.steady.calm.valid_iff _).mpr taken.localValid)
      ((shifted.steady.live _).mpr (live_of_read taken.key))),
    fun i y there => ?_, fun other away outside => ?_⟩
  · obtain ⟨z, here, held⟩ := known early
    obtain rfl := Option.some.inj (here.symm.trans there)
    exact shifted.above i z late early held
  · obtain ⟨y, held, order⟩ := shifted.below i last
    obtain ⟨z, here, held'⟩ := known (show i < k by omega)
    obtain rfl := Option.some.inj (held'.symm.trans held)
    exact ⟨z, here, order⟩
  · have filled {j : ℕ} (different : j ≠ hole) :
        (replace type between (values.offset hole) rhs).read (values.offset j) =
          between.read (values.offset j) :=
      read_congr (slots_replace_of_ne (offset_ne different) (taken.elsewhere j).symm)
    have outside {j : ℕ} (beyond : j < hole ∨ k < j) :
        between.read (values.offset j) = memory.read (values.offset j) :=
      read_congr (shifted.frame _ fun i _ _ => offset_ne (by omega))
    rw [getElem?_inserted bound inside] at there
    split_ifs at there with before here after
    · rw [filled (by omega), outside (.inl before)]
      exact taken.value i y (by omega) there
    · obtain rfl := Option.some.inj there
      rw [here, read_replace_self place apart, read_congr kept]
      exact taken.key
    · obtain ⟨j, rfl⟩ : ∃ j, i = j + 1 := ⟨i - 1, by omega⟩
      rw [filled (by omega), shifted.moved j (by omega) (by omega)]
      exact taken.value j y (by omega) there
    · rw [filled (by omega), outside (.inr (by omega))]
      exact taken.value i y (by omega) there
  · rw [slots_replace_of_ne (outside hole (by omega)) away]
    exact shifted.frame other fun i _ small => outside i (by omega)

/-- An element of the array moves to a new local object. -/
theorem Holds.taken (holds : Holds memory values xs) (usable : Usable type memory)
    (there : xs[k]? = some x) :
    let rhs : Address := (memory.blocks.length, 0)
    let after := constructAt type (memory.allocate 1).2 rhs (.element (values.offset k)) true
    Taken values rhs xs k x after ∧ Usable type after ∧ Calm (memory.allocate 1).2 after ∧
      (∀ other, after.Live other ↔ other = rhs ∨ memory.Live other) ∧
      ∀ other, other ≠ rhs → other ≠ values.offset k → after.slots other = memory.slots other := by
  intro rhs after
  have inside : k < xs.length := (List.getElem?_eq_some_iff.mp there).1
  have localValid : (memory.allocate 1).2.Valid rhs := valid_allocate usable
  have valid (i : ℕ) (bound : i < xs.length) : (memory.allocate 1).2.Valid (values.offset i) :=
    valid_allocate_of_valid (holds.valid i bound) 1
  have elsewhere (i : ℕ) : rhs ≠ values.offset i := fun same =>
    Nat.ne_of_gt (block_lt (holds.valid k inside)) (congrArg Prod.fst same)
  have calm : Calm (memory.allocate 1).2 after := calm_moveAt localValid (valid k inside)
  have live (other : Address) : after.Live other ↔ other = rhs ∨ memory.Live other :=
    live_moveAt localValid
  have slots (other : Address) (away : other ≠ rhs) (apart : other ≠ values.offset k) :
      after.slots other = memory.slots other := slots_moveAt_of_ne away apart
  refine ⟨⟨elsewhere, (calm.valid_iff rhs).mpr localValid, ?_, ?_, ?_, ?_⟩, ?_, calm, live, slots⟩
  · exact (read_moveAt_self localValid (elsewhere k)).trans (holds.value k x there)
  · exact fun i bound => (calm.valid_iff _).mpr (valid i bound)
  · exact fun i bound => (live _).mpr (.inr (holds.live bound))
  · intro i y different here
    rw [read_congr (slots _ (elsewhere i).symm (offset_ne different))]
    exact holds.value i y here
  · exact usable_moveAt (usable_allocate usable) localValid
      (fun observed => (usable.sound observed).not_live_new 0) (valid k inside) (holds.live inside)

/-- One round: the element is inserted into the sorted part. -/
theorem insertElement_spec [IsStrictOrder T fun a b => less a b = true]
    (total : ∀ a b, cmp a b = some (less a b)) (usable : Usable type memory)
    (holds : Holds memory values xs) (inside : k < xs.length)
    (sorted : (xs.take k).Pairwise fun a b => less b a = false) :
    ∃ ys after, insertElement type cmp values memory k = some after ∧ Usable type after ∧
      Holds after values ys ∧ ys.Perm xs ∧
      ((ys.take (k + 1)).Pairwise fun a b => less b a = false) ∧
      Confined values xs.length memory after := by
  have there : xs[k]? = some xs[k] := List.getElem?_eq_getElem inside
  obtain ⟨taken, usable', calm, live, slots⟩ := holds.taken usable there
  obtain ⟨hole, between, run, bound, above, below, steady, values', frame⟩ :=
    taken.fill type total inside
  set rhs : Address := (memory.blocks.length, 0) with rhs_eq
  set filled := replace type between (values.offset hole) rhs with filled_eq
  have whole : Calm (memory.allocate 1).2 filled := calm.trans steady.calm
  have localValid : filled.Valid rhs := (steady.calm.valid_iff rhs).mpr taken.localValid
  have old {other : Address} (valid : memory.Valid other) : other.1 ≠ memory.blocks.length :=
    Nat.ne_of_lt (block_lt valid)
  have valid {other : Address} (valid : memory.Valid other) :
      ((filled.destroy type rhs).free memory.blocks.length).Valid other :=
    (valid_leave localValid (old valid)).mpr
      ((whole.valid_iff other).mpr (valid_allocate_of_valid valid 1))
  have perm := inserted_perm (x := xs[k]) bound there
  refine ⟨inserted xs k hole xs[k], (filled.destroy type rhs).free memory.blocks.length, ?_, ?_,
    ⟨fun i small => ?_, fun i y held => ?_⟩, perm,
    pairwise_inserted sorted bound inside above below, ?_, fun other => valid,
    fun other there => ?_, fun other there outside => ?_⟩
  · change (shift type cmp values rhs k (constructAt type (memory.allocate 1).2 rhs
      (.element (values.offset k)) true)).bind _ = _
    rw [run]
    rfl
  · refine usable_leave (steady.usable usable') localValid (fun i there => ?_)
      ((steady.live rhs).mpr (live_of_read taken.key))
    exact valid_allocate_new ((whole.valid_iff _).mp there)
  · exact valid (holds.valid i (perm.length_eq ▸ small))
  · have small : i < xs.length := perm.length_eq ▸ (List.getElem?_eq_some_iff.mp held).1
    exact (read_congr (slots_leave (old (holds.valid i small)))).trans (values' i y held)
  · exact (Calm.destroy localValid).wild.trans whole.wild
  · rw [live_congr (slots_leave (old there)), steady.live, live]
    exact or_iff_right fun same => old there (congrArg Prod.fst same)
  · have away : other ≠ rhs := fun same => old there (congrArg Prod.fst same)
    rw [slots_leave (old there), frame other away outside, slots other away (outside k inside)]

/-- All rounds. -/
theorem foldlM_insertElement [IsStrictOrder T fun a b => less a b = true]
    (total : ∀ a b, cmp a b = some (less a b)) (count : ℕ) (usable : Usable type memory)
    (holds : Holds memory values xs) (inside : k + count ≤ xs.length)
    (sorted : (xs.take k).Pairwise fun a b => less b a = false) :
    ∃ ys after, (List.range' k count).foldlM (insertElement type cmp values) memory = some after ∧
      Usable type after ∧ Holds after values ys ∧ ys.Perm xs ∧
      ((ys.take (k + count)).Pairwise fun a b => less b a = false) ∧
      Confined values xs.length memory after := by
  induction count generalizing k xs memory with
  | zero => exact ⟨xs, memory, rfl, usable, holds, .refl xs, sorted, .refl memory⟩
  | succ count ih =>
    obtain ⟨ys, between, first, usable', holds', perm, sorted', confined⟩ :=
      insertElement_spec total usable holds (by omega) sorted
    obtain ⟨zs, after, rest, usable'', holds'', perm', sorted'', confined'⟩ :=
      ih usable' holds' (by rw [perm.length_eq]; omega) sorted'
    refine ⟨zs, after, ?_, usable'', holds'', perm'.trans perm, ?_,
      confined.trans (perm.length_eq ▸ confined')⟩
    · rw [List.range'_succ, List.foldlM_cons, first]
      exact rest
    · rwa [Nat.add_right_comm, Nat.add_assoc] at sorted''

/-- The sort ends; the array then has a permutation of its values in the order, nothing was misused,
and nothing else is different. -/
def SortsInPlace (type : ObjectType T) (less : T → T → Bool) (memory : Memory T) (values : Address)
    (xs : List T) : Prop :=
  ∃ ys after, insertionSort type (fun a b => some (less a b)) values xs.length memory = some after ∧
    Usable type after ∧ Holds after values ys ∧ ys.Perm xs ∧
    (ys.Pairwise fun a b => less b a = false) ∧ Confined values xs.length memory after

theorem sortsInPlace [IsStrictOrder T fun a b => less a b = true] (usable : Usable type memory)
    (holds : Holds memory values xs) : SortsInPlace type less memory values xs := by
  cases xs with
  | nil => exact ⟨[], memory, rfl, usable, holds, .refl _, .nil, .refl memory⟩
  | cons x rest =>
    have total (a b : T) : some (less a b) = some (less a b) := rfl
    obtain ⟨ys, after, run, usable', holds', perm, sorted, confined⟩ :=
      foldlM_insertElement (k := 1) total rest.length usable holds
        (by rw [List.length_cons]; omega) (List.pairwise_singleton _ x)
    refine ⟨ys, after, run, usable', holds', perm, ?_, confined⟩
    rwa [List.take_of_length_le (by rw [perm.length_eq, List.length_cons]; omega)] at sorted

end Rounds

section Aborts

variable {a b : Address} {result : Bool × Memory T}

/-- A comparison that may abort, where it does not. -/
theorem compare_of_agrees (agrees : ∀ a b r, cmp a b = some r → less a b = r)
    (run : compare cmp memory a b = some result) :
    compare (fun a b => some (less a b)) memory a b = some result := by
  simp only [compare, Option.bind_eq_bind, Option.bind_eq_some_iff] at run ⊢
  obtain ⟨x, here, y, there, r, same, done⟩ := run
  exact ⟨x, here, y, there, r, congrArg some (agrees x y r same), done⟩

theorem shift_of_agrees (agrees : ∀ a b r, cmp a b = some r → less a b = r) {start : ℕ}
    {stop : ℕ × Memory T} (run : shift type cmp values rhs start memory = some stop) :
    shift type (fun a b => some (less a b)) values rhs start memory = some stop := by
  induction start generalizing memory with
  | zero => exact run
  | succ start ih =>
    simp only [shift, Option.bind_eq_bind, Option.bind_eq_some_iff] at run ⊢
    obtain ⟨result, compared, rest⟩ := run
    refine ⟨result, compare_of_agrees agrees compared, ?_⟩
    split_ifs at rest ⊢ with order
    · exact rest
    · exact ih rest

theorem insertElement_of_agrees (agrees : ∀ a b r, cmp a b = some r → less a b = r) {k : ℕ}
    (run : insertElement type cmp values memory k = some after) :
    insertElement type (fun a b => some (less a b)) values memory k = some after := by
  simp only [insertElement, Option.bind_eq_bind, Option.bind_eq_some_iff] at run ⊢
  obtain ⟨stop, shifted, done⟩ := run
  exact ⟨stop, shift_of_agrees agrees shifted, done⟩

theorem insertionSort_of_agrees (agrees : ∀ a b r, cmp a b = some r → less a b = r) {count : ℕ}
    (run : insertionSort type cmp values count memory = some after) :
    insertionSort type (fun a b => some (less a b)) values count memory = some after := by
  unfold insertionSort at run ⊢
  generalize List.range' 1 (count - 1) = indices at run ⊢
  induction indices generalizing memory with
  | nil => exact run
  | cons k rest ih =>
    rw [List.foldlM_cons, Option.bind_eq_bind, Option.bind_eq_some_iff] at run ⊢
    obtain ⟨between, first, rest⟩ := run
    exact ⟨between, insertElement_of_agrees agrees first, ih rest⟩

end Aborts

section Strays

theorem keeps_replace : Keeps memory (replace type memory dest src) :=
  (Keeps.destroy memory dest).trans (keeps_constructAt _ dest _ true)

theorem keeps_shift {start hole : ℕ}
    (run : shift type cmp values rhs start memory = some (hole, after)) : Keeps memory after := by
  induction start generalizing memory with
  | zero =>
    obtain ⟨-, rfl⟩ := Prod.mk.inj (Option.some.inj run)
    exact Keeps.refl memory
  | succ start ih =>
    simp only [shift, compare, Option.bind_eq_bind, Option.bind_eq_some_iff,
      Option.some.injEq] at run
    obtain ⟨result, ⟨x, -, y, -, r, -, rfl⟩, rest⟩ := run
    have touched : Keeps memory ((memory.touch (values.offset start)).touch rhs) :=
      (Keeps.touch memory _).trans (Keeps.touch _ rhs)
    split at rest
    · obtain ⟨-, rfl⟩ := Prod.mk.inj (Option.some.inj rest)
      exact touched
    · exact touched.trans (keeps_replace.trans (ih rest))

/-- A round does not forget an access outside of the blocks. -/
theorem insertElement_wild (wild : memory.wild = true) {k : ℕ}
    (run : insertElement type cmp values memory k = some after) : after.wild = true := by
  simp only [insertElement, Option.bind_eq_bind, Option.bind_eq_some_iff,
    Option.some.injEq] at run
  obtain ⟨⟨hole, between⟩, shifted, rfl⟩ := run
  have opened : (memory.allocate 1).2.wild = true := wild
  have kept := ((keeps_constructAt _ _ _ true).trans (keeps_shift shifted)).wild opened
  exact (Keeps.destroy _ _).wild (keeps_replace.wild kept)

theorem insertionSort_wild (wild : memory.wild = true) {count : ℕ}
    (run : insertionSort type cmp values count memory = some after) : after.wild = true := by
  unfold insertionSort at run
  generalize List.range' 1 (count - 1) = indices at run
  induction indices generalizing memory with
  | nil =>
    obtain rfl := Option.some.inj run
    exact wild
  | cons k rest ih =>
    rw [List.foldlM_cons, Option.bind_eq_bind, Option.bind_eq_some_iff] at run
    obtain ⟨between, first, rest⟩ := run
    exact ih (insertElement_wild wild first) rest

end Strays

end Hakkun.Util
