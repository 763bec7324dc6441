import Mathlib.Data.List.Basic
import Mathlib.Order.Bounds.Defs

/-! # Layout of aligned items

Items are placed one after the other, each at the next multiple of its alignment. No other placement
in that order ends earlier.
-/

namespace Hakkun.Math

/-- The least multiple of an alignment that is not below. -/
def roundUp (alignment n : ℕ) : ℕ := (n + (alignment - 1)) / alignment * alignment

variable {alignment n bound : ℕ}

theorem dvd_roundUp : alignment ∣ roundUp alignment n := Nat.dvd_mul_left _ _

theorem le_roundUp (positive : 0 < alignment) : n ≤ roundUp alignment n := by
  have := Nat.div_add_mod (n + (alignment - 1)) alignment
  have := Nat.mod_lt (n + (alignment - 1)) positive
  rw [roundUp, Nat.mul_comm]
  omega

theorem roundUp_le (positive : 0 < alignment) (multiple : alignment ∣ bound) (below : n ≤ bound) :
    roundUp alignment n ≤ bound := by
  obtain ⟨count, rfl⟩ := multiple
  rw [roundUp, Nat.mul_comm]
  refine Nat.mul_le_mul_left alignment (Nat.lt_succ_iff.mp ?_)
  rw [Nat.div_lt_iff_lt_mul positive, Nat.succ_mul, Nat.mul_comm]
  omega

theorem roundUp_mono (positive : 0 < alignment) {m : ℕ} (below : m ≤ n) :
    roundUp alignment m ≤ roundUp alignment n :=
  roundUp_le positive dvd_roundUp (Nat.le_trans below (le_roundUp positive))

/-- Something of a size that starts at multiples of its alignment. -/
structure Item where
  size : ℕ
  alignment : ℕ
  positive : 0 < alignment

/-- Where items start that are placed from some position on. -/
def starts (at_ : ℕ) : List Item → List ℕ
  | [] => []
  | item :: rest =>
    let start := roundUp item.alignment at_
    start :: starts (start + item.size) rest

/-- Where the last of them ends. -/
def finish (at_ : ℕ) : List Item → ℕ
  | [] => at_
  | item :: rest => finish (roundUp item.alignment at_ + item.size) rest

def maxAlignment (items : List Item) : ℕ := (items.map Item.alignment).foldr max 1

/-- The size of all items together, rounded up to the largest alignment. -/
def layoutSize (items : List Item) : ℕ := roundUp (maxAlignment items) (finish 0 items)

/-- Positions in order that are multiples of the alignments, each behind the item before. -/
def Places (at_ : ℕ) : List Item → List ℕ → Prop
  | [], [] => True
  | item :: rest, start :: later =>
    item.alignment ∣ start ∧ at_ ≤ start ∧ Places (start + item.size) rest later
  | _, _ => False

/-- Nothing of the placed items is behind a bound. -/
def Covers (bound : ℕ) (items : List Item) (positions : List ℕ) : Prop :=
  ∀ (i : ℕ) (item : Item) (start : ℕ),
    items[i]? = some item → positions[i]? = some start → start + item.size ≤ bound

variable {items : List Item} {positions : List ℕ} {at_ : ℕ}

theorem maxAlignment_pos : 0 < maxAlignment items := by
  induction items with
  | nil => exact Nat.one_pos
  | cons item rest ih => exact Nat.lt_of_lt_of_le item.positive (Nat.le_max_left ..)

theorem length_starts (at_ : ℕ) : (starts at_ items).length = items.length := by
  induction items generalizing at_ with
  | nil => rfl
  | cons item rest ih => rw [starts, List.length_cons, ih, List.length_cons]

theorem places_starts (at_ : ℕ) : Places at_ items (starts at_ items) := by
  induction items generalizing at_ with
  | nil => trivial
  | cons item rest ih => exact ⟨dvd_roundUp, le_roundUp item.positive, ih _⟩

theorem le_finish (at_ : ℕ) : at_ ≤ finish at_ items := by
  induction items generalizing at_ with
  | nil => exact Nat.le_refl at_
  | cons item rest ih =>
    exact Nat.le_trans (le_roundUp item.positive) (Nat.le_trans (Nat.le_add_right _ _) (ih _))

theorem finish_mono {start : ℕ} (earlier : start ≤ at_) :
    finish start items ≤ finish at_ items := by
  induction items generalizing start at_ with
  | nil => exact earlier
  | cons item rest ih =>
    exact ih (Nat.add_le_add_right (roundUp_mono item.positive earlier) item.size)

theorem covers_starts (at_ : ℕ) : Covers (finish at_ items) items (starts at_ items) := by
  induction items generalizing at_ with
  | nil => nofun
  | cons item rest ih =>
    intro i other start here there
    cases i with
    | zero =>
      obtain rfl := Option.some.inj here
      obtain rfl := Option.some.inj there
      exact le_finish _
    | succ i => exact ih _ i other start here there

/-- A later item starts behind an earlier one. -/
theorem Places.le (places : Places at_ items positions) {i : ℕ} {start : ℕ}
    (there : positions[i]? = some start) : at_ ≤ start := by
  induction items generalizing at_ positions i with
  | nil =>
    cases positions with
    | nil => cases there
    | cons _ _ => exact places.elim
  | cons item rest ih =>
    cases positions with
    | nil => exact places.elim
    | cons first later =>
      obtain ⟨-, above, others⟩ := places
      cases i with
      | zero => exact Option.some.inj there ▸ above
      | succ i => exact Nat.le_trans above (Nat.le_trans (Nat.le_add_right _ _) (ih others there))

/-- Every placement that a bound covers ends behind the layout. -/
theorem Places.finish_le (places : Places at_ items positions) (inside : at_ ≤ bound)
    (covers : Covers bound items positions) : finish at_ items ≤ bound := by
  induction items generalizing at_ positions with
  | nil => exact inside
  | cons item rest ih =>
    cases positions with
    | nil => exact places.elim
    | cons start later =>
      obtain ⟨multiple, above, others⟩ := places
      have last : start + item.size ≤ bound := covers 0 item start rfl rfl
      have first : roundUp item.alignment at_ + item.size ≤ start + item.size :=
        Nat.add_le_add_right (roundUp_le item.positive multiple above) item.size
      have ends : finish (roundUp item.alignment at_ + item.size) rest ≤
          finish (start + item.size) rest := finish_mono first
      exact Nat.le_trans ends (ih others last fun i => covers (i + 1))

/-- The layout size is the least multiple of the largest alignment that covers a placement of the
same end. -/
theorem isLeast_layoutSize :
    IsLeast {size | maxAlignment items ∣ size ∧ Covers size items (starts 0 items)}
      (layoutSize items) := by
  constructor
  · exact ⟨dvd_roundUp, fun i item start here there =>
      Nat.le_trans (covers_starts 0 i item start here there) (le_roundUp maxAlignment_pos)⟩
  · rintro size ⟨multiple, covers⟩
    exact roundUp_le maxAlignment_pos multiple
      ((places_starts 0).finish_le (Nat.zero_le size) covers)

end Hakkun.Math
