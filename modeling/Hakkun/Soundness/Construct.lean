import Hakkun.Machine.Core.Strays
import Hakkun.Model.Util.Construct

/-! # What the construction algorithms do

Each loop is characterised by its invariant: the values that the slots hold after so many rounds,
and which slots are live.
-/

namespace Hakkun.Util

open Machine Machine.Memory

variable {T : Type} {type : ObjectType T} {memory after : Memory T} {dest src other : Address}

namespace Reference

/-- The value that a reference refers to. -/
def get (memory : Memory T) : Reference T → Option T
  | .temporary value => some value
  | .element address => memory.read address

/-- What a reference refers to can be accessed. -/
def Valid (memory : Memory T) : Reference T → Prop
  | .temporary _ => True
  | .element address => memory.Valid address

/-- What a reference refers to is an object. -/
def Live (memory : Memory T) : Reference T → Prop
  | .temporary _ => True
  | .element address => memory.Live address

end Reference

section Calm

theorem calm_constructAt {value : Reference T} (valid : memory.Valid dest)
    (source : value.Valid memory) (rvalue : Bool) :
    Calm memory (constructAt type memory dest value rvalue) := by
  cases value with
  | temporary value => exact Calm.construct valid _
  | element src =>
    have touched : Calm memory (memory.touch src) := Calm.touch source
    have built : Calm memory ((memory.touch src).construct type dest (memory.read src)) :=
      touched.trans (Calm.construct ((touched.valid_iff dest).mpr valid) _)
    cases rvalue with
    | false => exact built
    | true => exact built.trans Calm.retire

theorem keeps_constructAt (memory : Memory T) (dest : Address) (value : Reference T)
    (rvalue : Bool) : Keeps memory (constructAt type memory dest value rvalue) := by
  cases value with
  | temporary value => exact Keeps.construct memory dest _
  | element src =>
    have built : Keeps memory ((memory.touch src).construct type dest (memory.read src)) :=
      (Keeps.touch memory src).trans (Keeps.construct _ dest _)
    cases rvalue with
    | false => exact built
    | true => exact built.trans (Keeps.retire _ src)

theorem calm_loop {body : ℕ → Memory T → Memory T} {amount : ℕ}
    (calm : ∀ i < amount, ∀ between, Calm memory between → Calm between (body i between)) :
    Calm memory (loop body amount memory) :=
  loop_invariant body amount memory (fun _ between => Calm memory between) (Calm.refl memory)
    fun i bound between kept => kept.trans (calm i bound between kept)

theorem Reference.valid_congr {value : Reference T} (calm : Calm memory after) :
    value.Valid after ↔ value.Valid memory := by
  cases value with
  | temporary value => rfl
  | element address => exact calm.valid_iff address

/-- Loops that construct objects in valid slots, whatever they do to a slot before. -/
theorem calm_constructs {prepare : Address → Memory T → Memory T} {src : ℕ → Reference T}
    {amount : ℕ} (rvalue : Bool)
    (calm : ∀ place memory, memory.Valid place → Calm memory (prepare place memory))
    (valid : ∀ i < amount, memory.Valid (dest.offset i))
    (sources : ∀ i < amount, (src i).Valid memory) :
    Calm memory (loop (fun i memory => constructAt type (prepare (dest.offset i) memory)
      (dest.offset i) (src i) rvalue) amount memory) := by
  refine calm_loop fun i bound between kept => ?_
  have place := (kept.valid_iff _).mpr (valid i bound)
  have prepared := calm (dest.offset i) between place
  exact prepared.trans (calm_constructAt ((prepared.valid_iff _).mpr place)
    ((Reference.valid_congr (kept.trans prepared)).mpr (sources i bound)) rvalue)

theorem calm_destroy {amount : ℕ} (valid : ∀ i < amount, memory.Valid (dest.offset i)) :
    Calm memory (destroy type memory dest amount) :=
  calm_loop fun i bound _ calm => Calm.destroy ((calm.valid_iff _).mpr (valid i bound))

theorem calm_constructCopy {src : ℕ → Reference T} {amount : ℕ}
    (valid : ∀ i < amount, memory.Valid (dest.offset i))
    (sources : ∀ i < amount, (src i).Valid memory) :
    Calm memory (constructCopy type memory dest src amount) :=
  calm_constructs false (fun _ memory _ => Calm.refl memory) valid sources

theorem calm_fill {value : Reference T} {amount : ℕ}
    (valid : ∀ i < amount, memory.Valid (dest.offset i)) (source : value.Valid memory) :
    Calm memory (fill type memory dest amount value) :=
  calm_constructs false (fun _ _ place => Calm.destroy place) valid fun _ _ => source

theorem calm_copy {src : ℕ → Reference T} {amount : ℕ}
    (valid : ∀ i < amount, memory.Valid (dest.offset i))
    (sources : ∀ i < amount, (src i).Valid memory) :
    Calm memory (copy type memory dest src amount) :=
  calm_constructs false (fun _ _ place => Calm.destroy place) valid sources

theorem calm_move {amount : ℕ} (valid : ∀ i < amount, memory.Valid (dest.offset i))
    (sources : ∀ i < amount, memory.Valid (src.offset i)) :
    Calm memory (move type memory dest src amount) :=
  calm_constructs true (fun _ _ place => Calm.destroy place) valid sources

theorem calm_constructMove {amount : ℕ} (valid : ∀ i < amount, memory.Valid (dest.offset i))
    (sources : ∀ i < amount, memory.Valid (src.offset i)) :
    Calm memory (constructMove type memory dest src amount) :=
  calm_constructs true (fun _ memory _ => Calm.refl memory) valid sources

theorem calm_construct [Inhabited T] {amount : ℕ}
    (valid : ∀ i < amount, memory.Valid (dest.offset i)) :
    Calm memory (construct type memory dest amount) :=
  calm_constructs false (fun _ memory _ => Calm.refl memory) valid fun _ _ => trivial

end Calm

section Values

theorem read_constructAt_self {value : Reference T} (valid : memory.Valid dest) :
    (constructAt type memory dest value false).read dest = value.get memory := by
  cases value with
  | temporary value => exact read_construct_self valid _
  | element src =>
    have touched : (memory.touch src).Valid dest := valid
    exact read_construct_self touched _

theorem read_constructAt_of_ne {value : Reference T} (different : other ≠ dest) :
    (constructAt type memory dest value false).read other = memory.read other := by
  cases value with
  | temporary value => exact read_construct_of_ne different _
  | element src =>
    exact (read_construct_of_ne different _).trans read_touch

theorem constructAt_element (rvalue : Bool) : constructAt type memory dest (.element src) rvalue =
    if rvalue then (constructAt type memory dest (.element src) false).retire type src
    else constructAt type memory dest (.element src) false := by
  cases rvalue <;> rfl

/-- A move to another slot. -/
theorem read_moveAt_self (valid : memory.Valid dest) (apart : dest ≠ src) :
    (constructAt type memory dest (.element src) true).read dest = memory.read src := by
  rw [constructAt_element, if_pos rfl, read_retire_of_ne apart]
  exact read_constructAt_self valid

theorem read_moveAt_of_ne (different : other ≠ dest) (apart : other ≠ src) :
    (constructAt type memory dest (.element src) true).read other = memory.read other := by
  rw [constructAt_element, if_pos rfl, read_retire_of_ne apart]
  exact read_constructAt_of_ne different

theorem read_moveAt_source (apart : src ≠ dest) :
    (constructAt type memory dest (.element src) true).read src =
      (memory.read src).map type.moved := by
  rw [constructAt_element, if_pos rfl, read_retire_self, read_constructAt_of_ne apart]

theorem read_moveAt_of_trivial (trivial : type.trivial = true) :
    (constructAt type memory dest (.element src) true).read other =
      (constructAt type memory dest (.element src) false).read other := by
  rw [constructAt_element, if_pos rfl, read_retire_of_trivial trivial]

theorem calm_constructMoveDestroy (valid : memory.Valid dest) (source : memory.Valid src) :
    Calm memory (constructMoveDestroy type dest src memory) := by
  have built : Calm memory (constructAt type memory dest (.element src) true) :=
    calm_constructAt valid (show Reference.Valid memory (.element src) from source) true
  exact built.trans (Calm.destroy ((built.valid_iff src).mpr source))

theorem read_constructMoveDestroy_self (valid : memory.Valid dest) (apart : dest ≠ src) :
    (constructMoveDestroy type dest src memory).read dest = memory.read src := by
  rw [constructMoveDestroy, read_destroy_of_ne apart, read_moveAt_self valid apart]

theorem read_constructMoveDestroy_of_ne (different : other ≠ dest) (apart : other ≠ src) :
    (constructMoveDestroy type dest src memory).read other = memory.read other := by
  rw [constructMoveDestroy, read_destroy_of_ne apart, read_moveAt_of_ne different apart]

theorem read_constructMoveDestroy_source (trivial : type.trivial = true) (apart : src ≠ dest) :
    (constructMoveDestroy type dest src memory).read src = memory.read src := by
  rw [constructMoveDestroy, destroy_of_trivial trivial, read_moveAt_of_trivial trivial,
    read_constructAt_of_ne apart]

variable (type memory) in
/-- Elements moved one place up: the last one first. -/
theorem read_shiftUp {block start amount : ℕ}
    (valid : ∀ i, start ≤ i → i ≤ start + amount → memory.Valid (block, i)) :
    Calm memory (constructMoveOverlapping type memory (block, start + 1) (block, start) amount) ∧
    (∀ i < start, (constructMoveOverlapping type memory (block, start + 1) (block, start)
      amount).read (block, i) = memory.read (block, i)) ∧
    (∀ i, start ≤ i → i < start + amount → (constructMoveOverlapping type memory (block, start + 1)
      (block, start) amount).read (block, i + 1) = memory.read (block, i)) ∧
    (type.trivial = true → (constructMoveOverlapping type memory (block, start + 1) (block, start)
      amount).read (block, start) = memory.read (block, start)) := by
  rw [constructMoveOverlapping, if_neg (by simp)]
  have result := loop_invariant (fun i => constructMoveDestroy type
      (Address.offset (block, start + 1) (amount - 1 - i))
      (Address.offset (block, start) (amount - 1 - i))) amount memory
    (fun rounds between => Calm memory between ∧
      (∀ i < start + (amount - rounds), between.read (block, i) = memory.read (block, i)) ∧
      (∀ i, start + (amount - rounds) ≤ i → i < start + amount →
        between.read (block, i + 1) = memory.read (block, i)) ∧
      (type.trivial = true → between.read (block, start + (amount - rounds)) =
        memory.read (block, start + (amount - rounds))))
    ?_ ?_
  · simpa using result
  · refine ⟨Calm.refl memory, fun _ _ => rfl, fun i after before => ?_, fun _ => rfl⟩
    omega
  · rintro rounds bound between ⟨calm, below, moved, kept⟩
    -- the element of this round, and the slot above it
    obtain ⟨gap, width⟩ : ∃ gap, amount - rounds = gap + 1 := ⟨amount - rounds - 1, by omega⟩
    have place : Address.offset (block, start) (amount - 1 - rounds) = (block, start + gap) := by
      rw [Address.offset]
      congr 1
      omega
    have above : Address.offset (block, start + 1) (amount - 1 - rounds) =
        (block, start + gap + 1) := by
      rw [Address.offset]
      congr 1
      omega
    have left : amount - (rounds + 1) = gap := by omega
    rw [place, above, left]
    rw [width] at below moved kept
    have validDest : between.Valid (block, start + gap + 1) :=
      (calm.valid_iff _).mpr (valid _ (by omega) (by omega))
    have validSource : between.Valid (block, start + gap) :=
      (calm.valid_iff _).mpr (valid _ (by omega) (by omega))
    refine ⟨calm.trans (calm_constructMoveDestroy validDest validSource), ?_, ?_, ?_⟩
    · intro i small
      rw [read_constructMoveDestroy_of_ne (by simp; omega) (by simp; omega)]
      exact below i (by omega)
    · intro i large inside
      rcases Nat.eq_or_lt_of_le large with rfl | later
      · rw [read_constructMoveDestroy_self validDest (by simp)]
        exact below _ (by omega)
      · rw [read_constructMoveDestroy_of_ne (by simp; omega) (by simp; omega)]
        exact moved i (by omega) inside
    · intro trivial
      rw [read_constructMoveDestroy_source trivial (by simp)]
      exact below _ (by omega)

variable (type memory) in
/-- Elements moved one place down: the first one first. -/
theorem read_shiftDown {block start amount : ℕ}
    (valid : ∀ i, start ≤ i → i ≤ start + amount → memory.Valid (block, i)) :
    Calm memory (constructMoveOverlapping type memory (block, start) (block, start + 1) amount) ∧
    (∀ i < start, (constructMoveOverlapping type memory (block, start) (block, start + 1)
      amount).read (block, i) = memory.read (block, i)) ∧
    (∀ i, start ≤ i → i < start + amount → (constructMoveOverlapping type memory (block, start)
      (block, start + 1) amount).read (block, i) = memory.read (block, i + 1)) := by
  rw [constructMoveOverlapping, if_pos (by simp)]
  have result := loop_invariant (fun i => constructMoveDestroy type
      (Address.offset (block, start) i) (Address.offset (block, start + 1) i)) amount memory
    (fun rounds between => Calm memory between ∧
      (∀ i < start, between.read (block, i) = memory.read (block, i)) ∧
      (∀ i, start ≤ i → i < start + rounds →
        between.read (block, i) = memory.read (block, i + 1)) ∧
      (∀ i, start + rounds < i → between.read (block, i) = memory.read (block, i)))
    ?_ ?_
  · obtain ⟨calm, below, moved, -⟩ := result
    exact ⟨calm, below, moved⟩
  · refine ⟨Calm.refl memory, fun _ _ => rfl, fun i after before => ?_, fun _ _ => rfl⟩
    omega
  · rintro rounds bound between ⟨calm, below, moved, above⟩
    simp only [Address.offset, Nat.add_right_comm start 1 rounds]
    have validDest : between.Valid (block, start + rounds) :=
      (calm.valid_iff _).mpr (valid _ (by omega) (by omega))
    have validSource : between.Valid (block, start + rounds + 1) :=
      (calm.valid_iff _).mpr (valid _ (by omega) (by omega))
    refine ⟨calm.trans (calm_constructMoveDestroy validDest validSource), ?_, ?_, ?_⟩
    · intro i small
      rw [read_constructMoveDestroy_of_ne (by simp; omega) (by simp; omega)]
      exact below i small
    · intro i large inside
      rcases Nat.eq_or_lt_of_le (show i ≤ start + rounds by omega) with rfl | earlier
      · rw [read_constructMoveDestroy_self validDest (by simp)]
        exact above _ (by omega)
      · rw [read_constructMoveDestroy_of_ne (by simp; omega) (by simp; omega)]
        exact moved i large earlier
    · intro i large
      rw [read_constructMoveDestroy_of_ne (by simp; omega) (by simp; omega)]
      exact above i (by omega)

variable (type memory) in
/-- Elements moved to another block. -/
theorem read_constructMove {target block amount : ℕ} (apart : target ≠ block)
    (validDest : ∀ i < amount, memory.Valid (target, i))
    (validSource : ∀ i < amount, memory.Valid (block, i)) :
    Calm memory (constructMove type memory (target, 0) (block, 0) amount) ∧
    (∀ i < amount, (constructMove type memory (target, 0) (block, 0) amount).read (target, i) =
      memory.read (block, i)) ∧
    ∀ other : Address, other.1 ≠ target → other.1 ≠ block →
      (constructMove type memory (target, 0) (block, 0) amount).read other = memory.read other := by
  have result := loop_invariant (fun i memory => constructAt type memory
      (Address.offset (target, 0) i) (.element (Address.offset (block, 0) i)) true) amount memory
    (fun rounds between => Calm memory between ∧
      (∀ i < rounds, between.read (target, i) = memory.read (block, i)) ∧
      (∀ i, rounds ≤ i → between.read (block, i) = memory.read (block, i)) ∧
      ∀ other : Address, other.1 ≠ target → other.1 ≠ block →
        between.read other = memory.read other)
    ?_ ?_
  · exact ⟨result.1, result.2.1, result.2.2.2⟩
  · exact ⟨Calm.refl memory, fun i bound => absurd bound (Nat.not_lt_zero i), fun _ _ => rfl,
      fun _ _ _ => rfl⟩
  · rintro rounds bound between ⟨calm, moved, kept, others⟩
    simp only [Address.offset, Nat.zero_add]
    have dest : between.Valid (target, rounds) := (calm.valid_iff _).mpr (validDest _ bound)
    have source : between.Valid (block, rounds) := (calm.valid_iff _).mpr (validSource _ bound)
    refine ⟨calm.trans (calm_constructAt dest (show Reference.Valid between (.element _) from source)
      true), ?_, ?_, ?_⟩
    · intro i small
      rcases Nat.lt_succ_iff_lt_or_eq.mp small with earlier | rfl
      · rw [read_moveAt_of_ne (by simp; omega) (by simp [apart])]
        exact moved i earlier
      · rw [read_moveAt_self dest (by simp [apart])]
        exact kept i (Nat.le_refl i)
    · intro i large
      rw [read_moveAt_of_ne (by simp [apart.symm]) (by simp; omega)]
      exact kept i (by omega)
    · intro other away elsewhere
      rw [read_moveAt_of_ne (fun same => away (congrArg Prod.fst same))
        (fun same => elsewhere (congrArg Prod.fst same))]
      exact others other away elsewhere

/-- An address outside of a range. -/
def Outside (dest : Address) (amount : ℕ) (other : Address) : Prop :=
  ∀ i < amount, other ≠ dest.offset i

theorem Outside.mono {amount fewer : ℕ} (outside : Outside dest amount other)
    (less : fewer ≤ amount) : Outside dest fewer other :=
  fun i bound => outside i (Nat.lt_of_lt_of_le bound less)

theorem offset_injective {i j : ℕ} (same : dest.offset i = dest.offset j) : i = j :=
  Nat.add_left_cancel (congrArg Prod.snd same)

/-- A reference to something outside of a range. -/
def Reference.Apart (dest : Address) (amount : ℕ) : Reference T → Prop
  | .temporary _ => True
  | .element address => Outside dest amount address

theorem Reference.get_congr {value : Reference T} {amount : ℕ} (apart : value.Apart dest amount)
    (same : ∀ other, Outside dest amount other → after.read other = memory.read other) :
    value.get after = value.get memory := by
  cases value with
  | temporary value => rfl
  | element address => exact same address apart

theorem read_destroy {amount : ℕ} (outside : Outside dest amount other) :
    (destroy type memory dest amount).read other = memory.read other :=
  loop_invariant _ amount memory (fun _ between => between.read other = memory.read other) rfl
    fun i bound _ kept => (read_destroy_of_ne (outside i bound)).trans kept

section Copies

variable {src : ℕ → Reference T} {amount : ℕ}

/-- What a loop that constructs copies of elements outside of its range does, whatever it does to a
slot before. -/
theorem read_copies (prepare : Address → Memory T → Memory T)
    (calm : ∀ place memory, memory.Valid place → Calm memory (prepare place memory))
    (frame : ∀ place memory other, other ≠ place →
      (prepare place memory).read other = memory.read other)
    (valid : ∀ i < amount, memory.Valid (dest.offset i))
    (sources : ∀ i < amount, (src i).Valid memory ∧ (src i).Apart dest amount) :
    let after := loop (fun i memory => constructAt type (prepare (dest.offset i) memory)
      (dest.offset i) (src i) false) amount memory
    Calm memory after ∧ (∀ i < amount, after.read (dest.offset i) = (src i).get memory) ∧
      ∀ other, Outside dest amount other → after.read other = memory.read other := by
  have result := loop_invariant (fun i memory => constructAt type (prepare (dest.offset i) memory)
      (dest.offset i) (src i) false) amount memory
    (fun rounds between => Calm memory between ∧
      (∀ i < rounds, i < amount → between.read (dest.offset i) = (src i).get memory) ∧
      ∀ other, Outside dest amount other → between.read other = memory.read other)
    ?_ ?_
  · exact ⟨result.1, fun i bound => result.2.1 i bound bound, result.2.2⟩
  · exact ⟨Calm.refl memory, fun i bound => absurd bound (Nat.not_lt_zero i), fun _ _ => rfl⟩
  · rintro rounds bound between ⟨kept, copied, others⟩
    obtain ⟨source, apart⟩ := sources rounds bound
    have prepared := calm (dest.offset rounds) between ((kept.valid_iff _).mpr (valid _ bound))
    have built := kept.trans prepared
    have place : (prepare (dest.offset rounds) between).Valid (dest.offset rounds) :=
      (built.valid_iff _).mpr (valid _ bound)
    have same (other : Address) (outside : Outside dest amount other) :
        (prepare (dest.offset rounds) between).read other = memory.read other :=
      (frame _ _ other (outside rounds bound)).trans (others other outside)
    refine ⟨built.trans (calm_constructAt place ((Reference.valid_congr built).mpr source) false),
      ?_, ?_⟩
    · intro i small inside
      by_cases last : i = rounds
      · subst last
        rw [read_constructAt_self place]
        exact Reference.get_congr apart same
      · have different : dest.offset i ≠ dest.offset rounds := fun equal =>
          last (offset_injective equal)
        rw [read_constructAt_of_ne different, frame _ _ _ different]
        exact copied i (by omega) inside
    · intro other outside
      rw [read_constructAt_of_ne (outside rounds bound)]
      exact same other outside

variable (type) in
theorem read_constructCopy (valid : ∀ i < amount, memory.Valid (dest.offset i))
    (sources : ∀ i < amount, (src i).Valid memory ∧ (src i).Apart dest amount) :
    Calm memory (constructCopy type memory dest src amount) ∧
    (∀ i < amount, (constructCopy type memory dest src amount).read (dest.offset i) =
      (src i).get memory) ∧
    ∀ other, Outside dest amount other →
      (constructCopy type memory dest src amount).read other = memory.read other :=
  read_copies (fun _ memory => memory) (fun _ memory _ => Calm.refl memory)
    (fun _ _ _ _ => rfl) valid sources

variable (type) in
theorem read_fill {value : Reference T} (valid : ∀ i < amount, memory.Valid (dest.offset i))
    (source : value.Valid memory) (apart : value.Apart dest amount) :
    Calm memory (fill type memory dest amount value) ∧
    (∀ i < amount, (fill type memory dest amount value).read (dest.offset i) = value.get memory) ∧
    ∀ other, Outside dest amount other →
      (fill type memory dest amount value).read other = memory.read other :=
  read_copies (fun place memory => memory.destroy type place)
    (fun _ _ place => Calm.destroy place) (fun _ _ _ different => read_destroy_of_ne different)
    valid fun _ _ => ⟨source, apart⟩

end Copies

end Values

section Lifetimes

theorem not_outside_iff {amount : ℕ} :
    ¬ Outside dest amount other ↔ ∃ i < amount, other = dest.offset i := by
  simp [Outside]

/-- The round of a loop over a range. -/
theorem not_outside_succ {rounds : ℕ} :
    ¬ Outside dest (rounds + 1) other ↔ other = dest.offset rounds ∨ ¬ Outside dest rounds other := by
  rw [not_outside_iff, not_outside_iff]
  constructor
  · rintro ⟨i, bound, rfl⟩
    rcases Nat.lt_succ_iff_lt_or_eq.mp bound with earlier | rfl
    · exact .inr ⟨i, earlier, rfl⟩
    · exact .inl rfl
  · rintro (rfl | ⟨i, bound, rfl⟩)
    · exact ⟨rounds, Nat.lt_succ_self rounds, rfl⟩
    · exact ⟨i, Nat.lt_succ_of_lt bound, rfl⟩

theorem outside_offset {amount i : ℕ} (later : amount ≤ i) : Outside dest amount (dest.offset i) :=
  fun j bound same => by
    have := offset_injective same
    omega

theorem Reference.valid_of_live {value : Reference T} (sound : Sound memory)
    (live : value.Live memory) : value.Valid memory := by
  cases value with
  | temporary value => trivial
  | element address => exact sound.placed address live

/-- A reference to an object that is still there. -/
theorem Reference.live_of_forall {value : Reference T} (live : value.Live memory)
    (kept : ∀ address, value = .element address → memory.Live address → after.Live address) :
    value.Live after := by
  cases value with
  | temporary value => trivial
  | element address => exact kept address rfl live

variable (type) in
/-- A new object from a live one. -/
theorem sound_constructAt {value : Reference T} (sound : Sound memory) (valid : memory.Valid dest)
    (dead : ¬ memory.Live dest) (source : value.Live memory) (rvalue : Bool) :
    Sound (constructAt type memory dest value rvalue) ∧
      ∀ other, (constructAt type memory dest value rvalue).Live other ↔
        other = dest ∨ memory.Live other := by
  cases value with
  | temporary value => exact ⟨sound.construct valid dead _, fun _ => live_construct valid _⟩
  | element src =>
    have built : Sound (constructAt type memory dest (.element src) false) :=
      (sound.touch source).construct valid dead _
    have live (other : Address) : (constructAt type memory dest (.element src) false).Live other ↔
        other = dest ∨ memory.Live other := by
      have touched : (memory.touch src).Valid dest := valid
      exact live_construct touched _
    rw [constructAt_element]
    cases rvalue with
    | false => exact ⟨built, live⟩
    | true => exact ⟨built.retire, fun other => live_retire.trans (live other)⟩

variable (observed : type.trivial = false)

include observed

theorem sound_constructMoveDestroy (sound : Sound memory) (valid : memory.Valid dest)
    (dead : ¬ memory.Live dest) (source : memory.Live src) :
    Sound (constructMoveDestroy type dest src memory) ∧
      ∀ other, (constructMoveDestroy type dest src memory).Live other ↔
        other ≠ src ∧ (other = dest ∨ memory.Live other) := by
  obtain ⟨built, live⟩ := sound_constructAt type sound valid dead
    (show Reference.Live memory (.element src) from source) true
  have moved : (constructAt type memory dest (.element src) true).Live src :=
    (live src).mpr (.inr source)
  refine ⟨built.destroy observed moved, fun other => ?_⟩
  rw [constructMoveDestroy, live_destroy observed (built.placed src moved), live]

/-- The live slots after a move one place up. -/
theorem sound_shiftUp {block start amount : ℕ} (sound : Sound memory)
    (valid : ∀ i, start ≤ i → i ≤ start + amount → memory.Valid (block, i))
    (dead : ¬ memory.Live (block, start + amount))
    (sources : ∀ i, start ≤ i → i < start + amount → memory.Live (block, i)) :
    Sound (constructMoveOverlapping type memory (block, start + 1) (block, start) amount) ∧
    ∀ other, (constructMoveOverlapping type memory (block, start + 1) (block, start) amount).Live
        other ↔ other ≠ (block, start) ∧ (other = (block, start + amount) ∨ memory.Live other) := by
  rw [constructMoveOverlapping, if_neg (by simp)]
  have result := loop_invariant (fun i => constructMoveDestroy type
      (Address.offset (block, start + 1) (amount - 1 - i))
      (Address.offset (block, start) (amount - 1 - i))) amount memory
    (fun rounds between => Calm memory between ∧ Sound between ∧ ∀ other, between.Live other ↔
      other ≠ (block, start + (amount - rounds)) ∧
        (other = (block, start + amount) ∨ memory.Live other))
    ?_ ?_
  · simpa using result.2
  · refine ⟨Calm.refl memory, sound, fun other => ?_⟩
    constructor
    · intro live
      exact ⟨fun same => dead (same ▸ live), .inr live⟩
    · rintro ⟨away, rfl | live⟩
      · exact absurd rfl away
      · exact live
  · rintro rounds bound between ⟨calm, held, live⟩
    obtain ⟨gap, width⟩ : ∃ gap, amount - rounds = gap + 1 := ⟨amount - rounds - 1, by omega⟩
    have place : Address.offset (block, start) (amount - 1 - rounds) = (block, start + gap) := by
      rw [Address.offset]
      congr 1
      omega
    have above : Address.offset (block, start + 1) (amount - 1 - rounds) =
        (block, start + (amount - rounds)) := by
      rw [Address.offset]
      congr 1
      omega
    have left : amount - (rounds + 1) = gap := by omega
    rw [place, above, left]
    have hole : ¬ between.Live (block, start + (amount - rounds)) := fun there =>
      ((live _).mp there).1 rfl
    have source : between.Live (block, start + gap) :=
      (live _).mpr ⟨by simp; omega, .inr (sources _ (by omega) (by omega))⟩
    have validHole := (calm.valid_iff _).mpr (valid (start + (amount - rounds)) (by omega) (by omega))
    obtain ⟨moved, after⟩ := sound_constructMoveDestroy observed held validHole hole source
    refine ⟨calm.trans (calm_constructMoveDestroy validHole (held.placed _ source)), moved,
      fun other => ?_⟩
    rw [after, live]
    refine and_congr_right fun _ => ?_
    by_cases here : other = (block, start + (amount - rounds))
    · refine iff_of_true (.inl here) ?_
      -- the hole is the first free slot, or an element that has moved already
      by_cases first : rounds = 0
      · exact .inl (by rw [here, first, Nat.sub_zero])
      · exact .inr (here ▸ sources _ (by omega) (by omega))
    · rw [or_iff_right here, and_iff_right here]

/-- The live slots after a move one place down. -/
theorem sound_shiftDown {block start amount : ℕ} (sound : Sound memory)
    (valid : ∀ i, start ≤ i → i ≤ start + amount → memory.Valid (block, i))
    (dead : ¬ memory.Live (block, start))
    (sources : ∀ i, start < i → i ≤ start + amount → memory.Live (block, i)) :
    Sound (constructMoveOverlapping type memory (block, start) (block, start + 1) amount) ∧
    ∀ other, (constructMoveOverlapping type memory (block, start) (block, start + 1) amount).Live
        other ↔ other ≠ (block, start + amount) ∧ (other = (block, start) ∨ memory.Live other) := by
  rw [constructMoveOverlapping, if_pos (by simp)]
  have result := loop_invariant (fun i => constructMoveDestroy type
      (Address.offset (block, start) i) (Address.offset (block, start + 1) i)) amount memory
    (fun rounds between => Calm memory between ∧ Sound between ∧ ∀ other, between.Live other ↔
      other ≠ (block, start + rounds) ∧ (other = (block, start) ∨ memory.Live other))
    ?_ ?_
  · exact result.2
  · refine ⟨Calm.refl memory, sound, fun other => ?_⟩
    constructor
    · intro live
      exact ⟨fun same => dead (same ▸ live), .inr live⟩
    · rintro ⟨away, rfl | live⟩
      · exact absurd rfl away
      · exact live
  · rintro rounds bound between ⟨calm, held, live⟩
    simp only [Address.offset, Nat.add_right_comm start 1 rounds]
    have hole : ¬ between.Live (block, start + rounds) := fun there => ((live _).mp there).1 rfl
    have source : between.Live (block, start + rounds + 1) :=
      (live _).mpr ⟨by simp, .inr (sources _ (by omega) (by omega))⟩
    have validHole := (calm.valid_iff _).mpr (valid (start + rounds) (by omega) (by omega))
    obtain ⟨moved, after⟩ := sound_constructMoveDestroy observed held validHole hole source
    refine ⟨calm.trans (calm_constructMoveDestroy validHole (held.placed _ source)), moved,
      fun other => ?_⟩
    rw [after, live]
    refine and_congr_right fun _ => ?_
    by_cases here : other = (block, start + rounds)
    · refine iff_of_true (.inl here) ?_
      by_cases first : rounds = 0
      · exact .inl (by rw [here, first, Nat.add_zero])
      · exact .inr (here ▸ sources _ (by omega) (by omega))
    · rw [or_iff_right here, and_iff_right here]

/-- The live slots after the destruction of a range. -/
theorem sound_destroy {amount : ℕ} (sound : Sound memory)
    (live : ∀ i < amount, memory.Live (dest.offset i)) :
    Sound (destroy type memory dest amount) ∧
      ∀ other, (destroy type memory dest amount).Live other ↔
        Outside dest amount other ∧ memory.Live other := by
  refine loop_invariant _ amount memory (fun rounds between => Sound between ∧
    ∀ other, between.Live other ↔ Outside dest rounds other ∧ memory.Live other) ?_ ?_
  · exact ⟨sound, fun other => (and_iff_right fun i bound => absurd bound (Nat.not_lt_zero i)).symm⟩
  · rintro rounds bound between ⟨held, kept⟩
    have here : between.Live (dest.offset rounds) :=
      (kept _).mpr ⟨outside_offset (Nat.le_refl _), live rounds bound⟩
    refine ⟨held.destroy observed here, fun other => ?_⟩
    rw [live_destroy observed (held.placed _ here), kept, ← and_assoc]
    refine and_congr_left fun _ => ?_
    have next : ¬ Outside dest (rounds + 1) other ↔
        other = dest.offset rounds ∨ ¬ Outside dest rounds other := not_outside_succ
    tauto

/-- The live slots after a loop that replaces live objects. -/
theorem sound_replace {src : ℕ → Reference T} {amount : ℕ} (rvalue : Bool) (sound : Sound memory)
    (live : ∀ i < amount, memory.Live (dest.offset i))
    (sources : ∀ i < amount, (src i).Live memory ∧ (src i).Apart dest amount) :
    let after := loop (fun i memory => constructAt type (memory.destroy type (dest.offset i))
      (dest.offset i) (src i) rvalue) amount memory
    Sound after ∧ ∀ other, after.Live other ↔ memory.Live other := by
  refine loop_invariant _ amount memory (fun _ between => Sound between ∧
    ∀ other, between.Live other ↔ memory.Live other) ⟨sound, fun _ => Iff.rfl⟩ ?_
  rintro rounds bound between ⟨held, kept⟩
  obtain ⟨source, apart⟩ := sources rounds bound
  have here := (kept _).mpr (live rounds bound)
  have valid := held.placed _ here
  have gone (other : Address) : (between.destroy type (dest.offset rounds)).Live other ↔
      other ≠ dest.offset rounds ∧ between.Live other := live_destroy observed valid
  have source' : (src rounds).Live (between.destroy type (dest.offset rounds)) := by
    refine Reference.live_of_forall source fun address value live => (gone address).mpr ⟨?_, ?_⟩
    · rw [value] at apart
      exact apart rounds bound
    · exact (kept address).mpr live
  obtain ⟨built, after⟩ := sound_constructAt type (held.destroy observed here)
    (((Calm.destroy valid).valid_iff _).mpr valid) (fun there => ((gone _).mp there).1 rfl) source'
    rvalue
  refine ⟨built, fun other => ?_⟩
  rw [after, gone, ← kept]
  by_cases same : other = dest.offset rounds
  · exact iff_of_true (.inl same) (same ▸ here)
  · rw [or_iff_right same, and_iff_right same]

omit observed

variable (type) in
/-- The live slots after a loop that constructs new objects from live ones. -/
theorem sound_constructs {src : ℕ → Reference T} {amount : ℕ} (rvalue : Bool) (sound : Sound memory)
    (valid : ∀ i < amount, memory.Valid (dest.offset i))
    (dead : ∀ i < amount, ¬ memory.Live (dest.offset i))
    (sources : ∀ i < amount, (src i).Live memory) :
    let after := loop (fun i memory => constructAt type memory (dest.offset i) (src i) rvalue)
      amount memory
    Sound after ∧ ∀ other, after.Live other ↔ ¬ Outside dest amount other ∨ memory.Live other := by
  have result := loop_invariant (fun i memory => constructAt type memory (dest.offset i) (src i)
      rvalue) amount memory (fun rounds between => Calm memory between ∧ Sound between ∧
    ∀ other, between.Live other ↔ ¬ Outside dest rounds other ∨ memory.Live other) ?_ ?_
  · exact result.2
  · refine ⟨Calm.refl memory, sound, fun other => (or_iff_right ?_).symm⟩
    exact not_not.mpr fun i bound => absurd bound (Nat.not_lt_zero i)
  · rintro rounds bound between ⟨calm, held, live⟩
    have place := (calm.valid_iff _).mpr (valid rounds bound)
    have empty : ¬ between.Live (dest.offset rounds) := fun there =>
      ((live _).mp there).elim (not_not.mpr (outside_offset (Nat.le_refl _))) (dead rounds bound)
    have source : (src rounds).Live between :=
      Reference.live_of_forall (sources rounds bound) fun address _ before =>
        (live address).mpr (.inr before)
    obtain ⟨built, after⟩ := sound_constructAt type held place empty source rvalue
    refine ⟨calm.trans (calm_constructAt place (Reference.valid_of_live held source) rvalue), built,
      fun other => ?_⟩
    rw [after, live, not_outside_succ, or_assoc]

end Lifetimes

end Hakkun.Util
