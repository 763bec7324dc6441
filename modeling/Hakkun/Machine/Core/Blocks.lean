import Mathlib.Data.List.GetD

/-! # Absorbing a sequence block by block

A sequence is read in blocks of some size, each block becomes a word, and the words go into a state
one by one. Whole blocks can be split off the front. If the state and every word can be told from
what mixing them gives, a change within a block changes the state.
-/

namespace Hakkun.Machine.Core

variable {A W S : Type} {size count : ℕ} {word : (ℕ → A) → W} {read read' : ℕ → A}

/-- The words of the first blocks. -/
def words (size : ℕ) (word : (ℕ → A) → W) (read : ℕ → A) (count : ℕ) : List W :=
  (List.range count).map fun i => word fun k => read (k + i * size)

/-- A word is made from its block alone. -/
def OfBlock (size : ℕ) (word : (ℕ → A) → W) : Prop :=
  ∀ read read', (∀ k < size, read k = read' k) → word read = word read'

theorem words_congr (ofBlock : OfBlock size word)
    (same : ∀ offset < count * size, read offset = read' offset) :
    words size word read count = words size word read' count := by
  apply List.map_congr_left
  intro i member
  apply ofBlock
  intro k inside
  apply same
  have block : (i + 1) * size ≤ count * size := Nat.mul_le_mul_right _ (List.mem_range.mp member)
  rw [Nat.succ_mul] at block
  omega

theorem words_add (first second : ℕ) :
    words size word read (first + second) =
      words size word read first ++
        words size word (fun offset => read (offset + first * size)) second := by
  rw [words, List.range_add, List.map_append, List.map_map]
  congr 1
  apply List.map_congr_left
  intro i _
  apply congrArg word
  funext k
  change read (k + (first + i) * size) = read (k + i * size + first * size)
  rw [Nat.add_assoc, ← Nat.add_mul, Nat.add_comm i first]

/-- One block among the others. -/
theorem words_split {block : ℕ} (inside : block < count) :
    words size word read count =
      words size word read block ++ (word fun k => read (k + block * size)) ::
        words size word (fun offset => read (offset + (block + 1) * size))
          (count - (block + 1)) := by
  obtain ⟨later, rfl⟩ := Nat.exists_eq_add_of_lt inside
  have after : block + later + 1 - (block + 1) = later := by omega
  rw [after, Nat.add_right_comm block later 1, words_add, words_add, List.append_assoc]
  simp only [words, List.range_one, List.map_singleton, Nat.zero_mul, Nat.add_zero,
    List.singleton_append]

/-! ## Pieces -/

section Pieces

variable {mix : S → W → S} {fill : A}

/-- What a list gives at each offset. -/
def readList (fill : A) (bytes : List A) (offset : ℕ) : A := bytes.getD offset fill

theorem readList_append_left {first : List A} (second : List A) {offset : ℕ}
    (inside : offset < first.length) :
    readList fill (first ++ second) offset = readList fill first offset :=
  List.getD_append _ _ _ _ inside

theorem readList_append_right (first second : List A) (offset : ℕ) :
    readList fill (first ++ second) (offset + first.length) = readList fill second offset := by
  rw [readList, List.getD_append_right _ _ _ _ (Nat.le_add_left ..), Nat.add_sub_cancel]
  rfl

/-- A state after the whole blocks of a list. -/
def absorb (size : ℕ) (word : (ℕ → A) → W) (mix : S → W → S) (fill : A) (state : S)
    (bytes : List A) : S :=
  (words size word (readList fill bytes) (bytes.length / size)).foldl mix state

theorem absorb_append (ofBlock : OfBlock size word) (positive : 0 < size) (state : S)
    {first : List A} (second : List A) (whole : size ∣ first.length) :
    absorb size word mix fill state (first ++ second) =
      absorb size word mix fill (absorb size word mix fill state first) second := by
  obtain ⟨count, length⟩ := whole
  have blocks : first.length / size = count := by rw [length, Nat.mul_div_cancel_left _ positive]
  have bytes : count * size = first.length := by rw [length, Nat.mul_comm]
  have total : (first ++ second).length / size = count + second.length / size := by
    rw [List.length_append, length, Nat.mul_add_div positive]
  rw [absorb, absorb, absorb, total, blocks, words_add, List.foldl_append, bytes]
  congr 1
  · apply congrArg (List.foldl mix state)
    exact words_congr ofBlock fun offset inside => readList_append_left _ (bytes ▸ inside)
  · exact congrArg (words size word · _) (funext (readList_append_right first second))

/-- Pieces of whole blocks can be absorbed one by one, with any piece behind them. -/
theorem foldl_absorb (ofBlock : OfBlock size word) (positive : 0 < size) (state : S)
    (pieces : List (List A)) (whole : ∀ piece ∈ pieces.dropLast, size ∣ piece.length) :
    pieces.foldl (absorb size word mix fill) state =
      absorb size word mix fill state pieces.flatten := by
  induction pieces generalizing state with
  | nil => simp [absorb, words]
  | cons piece pieces ih =>
    rcases pieces with _ | ⟨next, pieces⟩
    · rw [List.flatten_singleton]
      rfl
    · rw [List.dropLast_cons_cons, List.forall_mem_cons] at whole
      rw [List.foldl_cons, ih _ whole.2, ← absorb_append ofBlock positive state _ whole.1]
      rfl

end Pieces

/-! ## A change in one block -/

theorem foldl_injective {mix : S → W → S} (states : ∀ w, Function.Injective fun s => mix s w)
    (ws : List W) : Function.Injective fun s => ws.foldl mix s := by
  induction ws with
  | nil => exact fun _ _ same => same
  | cons w ws ih => exact ih.comp (states w)

theorem foldl_words_ne {mix : S → W → S} {block : ℕ} {state : S} (ofBlock : OfBlock size word)
    (inside : block < count) (states : ∀ w, Function.Injective fun s => mix s w)
    (mixed : ∀ s, Function.Injective (mix s))
    (same : ∀ offset, offset / size ≠ block → read offset = read' offset)
    (differs : (word fun k => read (k + block * size)) ≠ word fun k => read' (k + block * size)) :
    (words size word read count).foldl mix state ≠
      (words size word read' count).foldl mix state := by
  rcases Nat.eq_zero_or_pos size with rfl | positive
  · exact absurd (ofBlock _ _ nofun) differs
  have before : words size word read block = words size word read' block :=
    words_congr ofBlock fun offset below =>
      same offset (Nat.ne_of_lt (Nat.div_lt_of_lt_mul (Nat.mul_comm .. ▸ below)))
  have after : words size word (fun offset => read (offset + (block + 1) * size))
      (count - (block + 1)) =
      words size word (fun offset => read' (offset + (block + 1) * size)) (count - (block + 1)) :=
    words_congr ofBlock fun offset _ => by
      have later : (offset + (block + 1) * size) / size ≠ block := by
        rw [Nat.add_mul_div_right _ _ positive]
        exact Nat.ne_of_gt (Nat.lt_add_left _ (Nat.lt_succ_self block))
      exact same _ later
  rw [words_split inside, words_split inside, before, after, List.foldl_append, List.foldl_append,
    List.foldl_cons, List.foldl_cons]
  exact fun equal => differs (mixed _ (foldl_injective states _ equal))

end Hakkun.Machine.Core
