import Hakkun.Machine.Core.Run
import Hakkun.Model.Container.FixedString
import Mathlib.Data.List.TakeDrop

/-! # Fixed strings and their abstract strings

A string that can be changed is followed together with the list that the same calls build without a
capacity. Truncating to more than the length, a length that wraps around when it is added, and a
view of a buffer without a terminator leave the abstract string; everything else follows it.
-/

namespace Hakkun.Container

open Machine

variable {T : Type} [Zero T]

/-! ## Characters -/

section Chars

omit [Zero T]

@[simp] theorem length_chars (data : ℕ → T) (amount : ℕ) : (chars data amount).length = amount := by
  rw [chars, List.length_map, List.length_range]

theorem chars_congr {first second : ℕ → T} {amount : ℕ}
    (same : ∀ i < amount, first i = second i) : chars first amount = chars second amount :=
  List.map_congr_left fun i member => same i (List.mem_range.mp member)

theorem take_chars (data : ℕ → T) (amount cut : ℕ) :
    (chars data amount).take cut = chars data (min cut amount) := by
  rw [chars, ← List.map_take, List.take_range, chars]

/-- The characters up to a distance, and those from there on. -/
theorem chars_add (data : ℕ → T) (first second : ℕ) :
    chars data (first + second) = chars data first ++ chars (fun i => data (first + i)) second := by
  rw [chars, List.range_add, List.map_append, List.map_map, chars, chars]
  rfl

theorem chars_copy (data src : ℕ → T) (start amount : ℕ) :
    chars (copyChars data start src amount) (start + amount) = chars data start ++ chars src amount := by
  rw [chars_add]
  congr 1
  · refine chars_congr fun i before => if_neg ?_
    omega
  · refine chars_congr fun i inside => ?_
    rw [copyChars, if_pos (by omega), Nat.add_sub_cancel_left]

/-- What is written at a distance does not change the characters before it. -/
theorem chars_update (data : ℕ → T) {amount place : ℕ} (value : T) (before : amount ≤ place) :
    chars (Function.update data place value) amount = chars data amount :=
  chars_congr fun i inside => Function.update_of_ne (by omega) value data

theorem chars_update_succ (data : ℕ → T) (amount : ℕ) (value : T) :
    chars (Function.update data amount value) (amount + 1) = chars data amount ++ [value] := by
  rw [chars_add, chars_update data value (Nat.le_refl amount)]
  congr 1
  rw [chars, List.range_one, List.map_singleton, Nat.add_zero, Function.update_self]

/-- Cutting before something is appended does not show after the same cut. -/
theorem take_append_take (first second : List T) (cut : ℕ) :
    (first.take cut ++ second).take cut = (first ++ second).take cut := by
  rw [List.take_append, List.take_append, List.take_take, Nat.min_self, List.length_take]
  congr 2
  omega

end Chars

/-! ## Views -/

theorem minSize_toNat (first second : U64) :
    (minSize first second).toNat = min first.toNat second.toNat := by
  rw [minSize]
  split <;> rename_i order <;> rw [BitVec.lt_def] at order <;> omega

theorem sub_one_toNat {capacity : U64} (positive : 0 < capacity.toNat) :
    (capacity - 1).toNat = capacity.toNat - 1 := by
  have := capacity.isLt
  rw [BitVec.toNat_sub]
  change (2 ^ 64 - 1 + capacity.toNat) % 2 ^ 64 = _
  omega

namespace MutableStringView

variable (view : MutableStringView T)

def content : List T := chars view.mData view.mSize.toNat

/-- A view follows an abstract string. -/
structure Follows (abstract : List T) : Prop where
  below : view.mSize.toNat < view.mCapacity.toNat
  isTerminated : view.mData view.mSize.toNat = 0
  content : view.content = abstract.take (view.mCapacity.toNat - 1)

variable {view}

theorem ensureNullTerminated_size (positive : 0 < view.mCapacity.toNat) :
    view.ensureNullTerminated.mSize.toNat = min view.mSize.toNat (view.mCapacity.toNat - 1) := by
  rw [ensureNullTerminated, minSize_toNat, sub_one_toNat positive]

theorem ensureNullTerminated_below (positive : 0 < view.mCapacity.toNat) :
    view.ensureNullTerminated.mSize.toNat < view.ensureNullTerminated.mCapacity.toNat := by
  rw [ensureNullTerminated_size positive]
  change _ < view.mCapacity.toNat
  omega

/-- A view with a terminator at its end has the characters that fit before it. -/
theorem ensureNullTerminated_content (positive : 0 < view.mCapacity.toNat) :
    view.ensureNullTerminated.content =
      chars view.mData (min view.mSize.toNat (view.mCapacity.toNat - 1)) := by
  rw [content, ensureNullTerminated_size positive]
  refine chars_update _ _ ?_
  rw [minSize_toNat, sub_one_toNat positive]

theorem follows_ensureNullTerminated (view : MutableStringView T)
    (positive : 0 < view.mCapacity.toNat) {abstract : List T}
    (same : chars view.mData (min view.mSize.toNat (view.mCapacity.toNat - 1)) =
      abstract.take (view.mCapacity.toNat - 1)) :
    view.ensureNullTerminated.Follows abstract where
  below := ensureNullTerminated_below positive
  isTerminated := Function.update_self _ _ _
  content := (ensureNullTerminated_content positive).trans same

theorem appendChar_capacity (view : MutableStringView T) (value : T) :
    (view.appendChar value).1.mCapacity = view.mCapacity := by
  rw [MutableStringView.appendChar]
  split <;> rfl

/-- A view follows its own characters exactly when it ends inside the buffer with a terminator. -/
theorem follows_chars_iff (data : ℕ → T) (size length : U64) :
    (⟨data, length, size⟩ : MutableStringView T).Follows (chars data length.toNat) ↔
      length < size ∧ data length.toNat = 0 := by
  constructor
  · intro follows
    exact ⟨follows.below, follows.isTerminated⟩
  · rintro ⟨below, isTerminated⟩
    refine ⟨below, isTerminated, ?_⟩
    rw [BitVec.lt_def] at below
    refine (List.take_of_length_le ?_).symm
    change (chars data length.toNat).length ≤ size.toNat - 1
    rw [length_chars]
    exact Nat.le_sub_one_of_lt below

/-- What was copied into zeros is terminated. -/
theorem follows_copy (data : ℕ → T) {length capacity : U64} {abstract : List T}
    (below : length.toNat < capacity.toNat)
    (same : chars data length.toNat = abstract.take (capacity.toNat - 1)) :
    (⟨copyChars (fun _ => 0) 0 data length.toNat, length, capacity⟩ : MutableStringView T).Follows
      abstract where
  below := below
  isTerminated := if_neg (show ¬ (0 ≤ length.toNat ∧ length.toNat < 0 + length.toNat) by omega)
  content := by
    have copied := chars_copy (fun _ => 0) data 0 length.toNat
    rw [Nat.zero_add] at copied
    exact copied.trans same

namespace Follows

variable {abstract : List T} (follows : view.Follows abstract)

include follows

theorem positive : 0 < view.mCapacity.toNat := Nat.zero_lt_of_lt follows.below

theorem size_eq : view.mSize.toNat = min (view.mCapacity.toNat - 1) abstract.length := by
  have lengths := congrArg List.length follows.content
  rwa [MutableStringView.content, length_chars, List.length_take] at lengths

/-- Truncating follows the abstract string when it does not make the view longer. -/
theorem truncate {newSize : U64}
    (shorter : min newSize.toNat (view.mCapacity.toNat - 1) ≤ view.mSize.toNat) :
    { view with mSize := newSize }.ensureNullTerminated.Follows (abstract.take newSize.toNat) := by
  apply follows_ensureNullTerminated
  · exact follows.positive
  change chars view.mData (min newSize.toNat (view.mCapacity.toNat - 1)) = _
  calc
    _ = view.content.take (min newSize.toNat (view.mCapacity.toNat - 1)) := by
      rw [MutableStringView.content, take_chars, Nat.min_eq_left shorter]
    _ = _ := by
      rw [follows.content, List.take_take, List.take_take]
      congr 1
      change _ = min (view.mCapacity.toNat - 1) newSize.toNat
      omega

theorem append_size (other : StringView T)
    (small : view.mSize.toNat + other.length.toNat < 2 ^ 64) :
    (minSize (view.mSize + other.length) (view.mCapacity - 1)).toNat =
      min (view.mSize.toNat + other.length.toNat) (view.mCapacity.toNat - 1) := by
  rw [minSize_toNat, sub_one_toNat follows.positive, BitVec.toNat_add, Nat.mod_eq_of_lt small]

/-- The characters that are copied by `append` are the ones that fit. -/
theorem append_amount (other : StringView T) :
    (minSize other.length (view.mCapacity - view.mSize - 1)).toNat =
      min other.length.toNat (view.mCapacity.toNat - 1 - view.mSize.toNat) := by
  have := view.mCapacity.isLt
  have := follows.below
  rw [minSize_toNat]
  congr 1
  rw [BitVec.toNat_sub, BitVec.toNat_sub]
  change (2 ^ 64 - 1 + (2 ^ 64 - view.mSize.toNat + view.mCapacity.toNat) % 2 ^ 64) % 2 ^ 64 = _
  omega

/-- Appending follows the abstract string while the lengths add up. -/
theorem append (other : StringView T) (small : view.mSize.toNat + other.length.toNat < 2 ^ 64) :
    (view.append other).1.Follows (abstract ++ chars other.data other.length.toNat) := by
  have below := follows.below
  apply follows_ensureNullTerminated
  · exact follows.positive
  change chars (copyChars view.mData view.mSize.toNat other.data _)
    (min (minSize _ _).toNat (view.mCapacity.toNat - 1)) = _
  rw [follows.append_size other small, follows.append_amount other]
  have split : min (min (view.mSize.toNat + other.length.toNat) (view.mCapacity.toNat - 1))
      (view.mCapacity.toNat - 1) = view.mSize.toNat +
        min other.length.toNat (view.mCapacity.toNat - 1 - view.mSize.toNat) := by omega
  calc
    _ = view.content ++ (chars other.data other.length.toNat).take
        (view.mCapacity.toNat - 1 - view.mSize.toNat) := by
      rw [split, chars_copy, take_chars, Nat.min_comm other.length.toNat]
      rfl
    _ = (view.content ++ chars other.data other.length.toNat).take (view.mCapacity.toNat - 1) := by
      have all : view.content.take (view.mCapacity.toNat - 1) = view.content := by
        rw [follows.content, List.take_take, Nat.min_self]
      rw [List.take_append, all, MutableStringView.content, length_chars]
    _ = _ := by rw [follows.content, take_append_take]

/-- Nothing is cut off exactly when everything fits before the terminator. -/
theorem content_eq_iff {after : MutableStringView T} {added : List T}
    (grown : after.Follows (abstract ++ added)) (capacity : after.mCapacity = view.mCapacity) :
    after.content = view.content ++ added ↔
      view.mSize.toNat + added.length ≤ view.mCapacity.toNat - 1 := by
  rw [grown.content, capacity, ← take_append_take, ← follows.content, List.take_eq_self_iff,
    List.length_append, MutableStringView.content, length_chars]

/-- `append` tells whether everything was appended. -/
theorem append_reply (other : StringView T)
    (small : view.mSize.toNat + other.length.toNat < 2 ^ 64) :
    (view.append other).2 = true ↔
      (view.append other).1.content = view.content ++ chars other.data other.length.toNat := by
  rw [follows.content_eq_iff (follows.append other small) rfl, length_chars]
  change (_ == _) = true ↔ _
  rw [beq_iff_eq, ← BitVec.toNat_inj, follows.append_size other small, BitVec.toNat_add,
    Nat.mod_eq_of_lt small]
  omega

/-- A length that wraps around makes the view shorter than what it should hold. -/
theorem not_append (other : StringView T)
    (wraps : ¬ view.mSize.toNat + other.length.toNat < 2 ^ 64) :
    ¬ (view.append other).1.Follows (abstract ++ chars other.data other.length.toNat) := by
  intro appended
  have below := follows.below
  have before := follows.size_eq
  have size := appended.size_eq
  have := view.mSize.isLt
  have := other.length.isLt
  have capacity : (view.append other).1.mCapacity = view.mCapacity := rfl
  have wrapped : (view.append other).1.mSize.toNat =
      min (min (view.mSize + other.length).toNat (view.mCapacity.toNat - 1))
        (view.mCapacity.toNat - 1) := by
    rw [← sub_one_toNat follows.positive, ← minSize_toNat, ← minSize_toNat]
    rfl
  rw [wrapped, BitVec.toNat_add, capacity, List.length_append, length_chars] at size
  omega

/-- There is room for a character exactly when the code sees room. -/
theorem full_iff : view.mCapacity - 1 ≤ view.mSize ↔ view.mSize.toNat = view.mCapacity.toNat - 1 := by
  have below := follows.below
  rw [BitVec.le_def, sub_one_toNat follows.positive]
  omega

theorem appendChar (value : T) : (view.appendChar value).1.Follows (abstract ++ [value]) := by
  have below := follows.below
  have size := follows.size_eq
  rw [MutableStringView.appendChar]
  split
  · rename_i full
    rw [follows.full_iff] at full
    refine ⟨below, follows.isTerminated, ?_⟩
    change view.content = (abstract ++ [value]).take (view.mCapacity.toNat - 1)
    rw [follows.content, List.take_append_of_le_length (by omega)]
  · rename_i room
    rw [follows.full_iff] at room
    have next : (view.mSize + 1).toNat = view.mSize.toNat + 1 := by
      rw [BitVec.toNat_add]
      change (view.mSize.toNat + 1) % 2 ^ 64 = _
      have := view.mCapacity.isLt
      omega
    apply follows_ensureNullTerminated
    · exact follows.positive
    change chars _ (min (view.mSize + 1).toNat (view.mCapacity.toNat - 1)) = _
    rw [next, Nat.min_eq_left (by omega), chars_update_succ]
    change view.content ++ [value] = (abstract ++ [value]).take (view.mCapacity.toNat - 1)
    have all : abstract.length < view.mCapacity.toNat - 1 := by omega
    rw [follows.content, List.take_of_length_le (Nat.le_of_lt all), List.take_of_length_le]
    rw [List.length_append, List.length_singleton]
    omega

theorem appendChar_reply (value : T) : (view.appendChar value).2 = true ↔
    (view.appendChar value).1.content = view.content ++ [value] := by
  have below := follows.below
  rw [follows.content_eq_iff (follows.appendChar value) (appendChar_capacity view value),
    List.length_singleton, MutableStringView.appendChar]
  split
  · rename_i full
    rw [follows.full_iff] at full
    simp only [Bool.false_eq_true, false_iff]
    omega
  · rename_i room
    rw [follows.full_iff] at room
    simp only [true_iff]
    omega

end Follows

end MutableStringView

/-! ## Fixed strings -/

namespace TextCall

/-- The abstract string after a call. -/
def build : TextCall T → List T → List T
  | .empty, _ => []
  | .ofCString data, _ => chars data.data data.length.toNat
  | .ofStringView src, _ => chars src.data src.length.toNat
  | .ofBuffer buffer _ _, _ => chars buffer.data buffer.length.toNat
  | .ofBufferLength buffer _ length _, _ => chars buffer length.toNat
  | .copy, abstract | .toMutableView, abstract => abstract
  | .append other, abstract | .addAssign other, abstract =>
    abstract ++ chars other.data other.length.toNat
  | .appendChar value, abstract => abstract ++ [value]
  | .truncate newSize, abstract => abstract.take newSize.toNat

end TextCall

namespace Text

variable {Capacity : U64} {width : ℕ}

/-- The view that a call works on. -/
def view : Text T Capacity width → MutableStringView T
  | .fixedString string => string.toMutableView
  | .mutableView view => view

/-- What a call promises for the string it leaves and for what it returned. -/
structure Promised (text : Text T Capacity width) (abstract : List T) (call : TextCall T)
    (after : Text T Capacity width) (reply : Option Bool) : Prop where
  follows : after.view.Follows (call.build abstract)
  reply : ∀ told, reply = some told →
    (told = true ↔ after.view.content = call.build text.view.content)
  truncate : ∀ newSize, call = .truncate newSize → after.view.mSize ≤ text.view.mSize

/-- A string with the abstract string it should follow. -/
abbrev Tracked (T : Type) (Capacity : U64) (width : ℕ) := Text T Capacity width × List T

def step (state : Tracked T Capacity width) (call : TextCall T) :
    Option (Tracked T Capacity width) :=
  (state.1.perform call).map fun done => (done.1, call.build state.2)

/-- A call that does not abort keeps its promise. -/
def Correct (state : Tracked T Capacity width) (call : TextCall T) : Prop :=
  ∀ after reply, state.1.perform call = some (after, reply) →
    Promised state.1 state.2 call after reply

/-- A buffer has its terminator inside, lengths add up without wrapping around, and truncating does
not ask for more characters than there are. -/
def Careful (state : Tracked T Capacity width) : TextCall T → Prop
  | .ofBuffer buffer size _ => buffer.length < size
  | .ofBufferLength buffer size length _ => length < size ∧ buffer length.toNat = 0
  | .append other | .addAssign other =>
    state.1.view.mSize.toNat + other.length.toNat < 2 ^ 64
  | .truncate newSize => newSize ≤ state.1.view.mCapacity →
    min newSize.toNat (state.1.view.mCapacity.toNat - 1) ≤ state.1.view.mSize.toNat
  | _ => True

instance decidableCareful [DecidableEq T] (state : Tracked T Capacity width) :
    (call : TextCall T) → Decidable (Careful state call)
  | .ofBuffer buffer size _ => inferInstanceAs (Decidable (buffer.length < size))
  | .ofBufferLength buffer size length _ =>
    inferInstanceAs (Decidable (length < size ∧ buffer length.toNat = 0))
  | .append other | .addAssign other =>
    inferInstanceAs (Decidable (state.1.view.mSize.toNat + other.length.toNat < 2 ^ 64))
  | .truncate newSize =>
    inferInstanceAs (Decidable (newSize ≤ state.1.view.mCapacity →
      min newSize.toNat (state.1.view.mCapacity.toNat - 1) ≤ state.1.view.mSize.toNat))
  | .empty | .ofCString _ | .ofStringView _ | .copy | .toMutableView | .appendChar _ =>
    inferInstanceAs (Decidable True)

end Text

/-- The length of a fixed string is wide enough for its capacity. -/
theorem capacity_lt_of_width {Capacity : U64} {width : ℕ}
    (compiles : calcSmallestWidth Capacity = some width) :
    Capacity.toNat < 2 ^ width ∧ width ≤ 32 := by
  have member := List.mem_of_find?_eq_some compiles
  have fits := List.find?_some compiles
  have small : width ≤ 32 := by
    simp only [List.mem_cons, List.not_mem_nil, or_false] at member
    omega
  exact ⟨(isRepresentable_one Capacity (by omega)).mp fits, small⟩

section Fixed

variable {Capacity : U64} {width : ℕ} (compiles : calcSmallestWidth Capacity = some width)
include compiles

namespace FixedString

omit [Zero T] in
/-- The narrow length of a fixed string gives back the length of the view. -/
theorem toMutableView_ofMutableView {view : MutableStringView T} (same : view.mCapacity = Capacity)
    (below : view.mSize.toNat < view.mCapacity.toNat) :
    (ofMutableView view : FixedString T Capacity width).toMutableView = view := by
  obtain ⟨fits, narrow⟩ := capacity_lt_of_width compiles
  subst same
  have length : (view.mSize.setWidth width).setWidth 64 = view.mSize := by
    apply BitVec.eq_of_toNat_eq
    rw [BitVec.toNat_setWidth, BitVec.toNat_setWidth, Nat.mod_eq_of_lt (Nat.lt_trans below fits),
      Nat.mod_eq_of_lt view.mSize.isLt]
  rw [ofMutableView, toMutableView, length]

variable (positive : 0 < Capacity)
include positive

omit compiles in
theorem follows_empty :
    (empty : FixedString T Capacity width).toMutableView.Follows [] := by
  have length : (0 : BitVec width).setWidth 64 = 0 := BitVec.setWidth_zero 64 width
  rw [empty, toMutableView, length]
  exact ⟨positive, rfl, List.take_nil.symm⟩

theorem follows_ofCString (data : CString T) :
    (ofCString data : FixedString T Capacity width).toMutableView.Follows
      (chars data.data data.length.toNat) := by
  obtain ⟨fits, narrow⟩ := capacity_lt_of_width compiles
  have amount : (minSize data.length (Capacity - 1)).toNat =
      min data.length.toNat (Capacity.toNat - 1) := by
    rw [minSize_toNat, sub_one_toNat positive]
  have below : (minSize data.length (Capacity - 1)).toNat < Capacity.toNat := by
    have : 0 < Capacity.toNat := positive
    omega
  have kept : ((minSize data.length (Capacity - 1)).setWidth width).toNat =
      (minSize data.length (Capacity - 1)).toNat := by
    rw [BitVec.toNat_setWidth, Nat.mod_eq_of_lt (Nat.lt_trans below fits)]
  have length : ((minSize data.length (Capacity - 1)).setWidth width).setWidth 64 =
      minSize data.length (Capacity - 1) := by
    apply BitVec.eq_of_toNat_eq
    rw [BitVec.toNat_setWidth, kept, Nat.mod_eq_of_lt (BitVec.isLt _)]
  rw [ofCString, toMutableView, kept, length]
  apply MutableStringView.follows_copy _ below
  rw [amount, take_chars, Nat.min_comm]

omit compiles positive in
theorem follows_ofFixedString {string : FixedString T Capacity width} {abstract : List T}
    (follows : string.toMutableView.Follows abstract) :
    (ofFixedString string).toMutableView.Follows abstract := by
  have amount : (minSize Capacity (string.mLength.setWidth 64)).toNat =
      (string.mLength.setWidth 64).toNat := by
    have below : (string.mLength.setWidth 64).toNat < Capacity.toNat := follows.below
    rw [minSize_toNat]
    omega
  rw [ofFixedString, toMutableView, amount]
  exact MutableStringView.follows_copy _ follows.below follows.content

end FixedString

namespace Text

/-- The string after its view was changed. -/
def keep : Text T Capacity width → MutableStringView T → Text T Capacity width
  | .fixedString _, view => .fixedString (.ofMutableView view)
  | .mutableView _, view => .mutableView view

omit [Zero T] in
theorem view_keep (text : Text T Capacity width) (view : MutableStringView T)
    (same : view.mCapacity = text.view.mCapacity)
    (below : view.mSize.toNat < view.mCapacity.toNat) : (text.keep view).view = view := by
  cases text with
  | fixedString string => exact FixedString.toMutableView_ofMutableView compiles same below
  | mutableView => rfl

variable {text : Text T Capacity width} {abstract : List T} (follows : text.view.Follows abstract)
include follows

theorem view_keep_append (other : StringView T) :
    (text.keep (text.view.append other).1).view = (text.view.append other).1 := by
  refine view_keep compiles text (text.view.append other).1 rfl ?_
  exact MutableStringView.ensureNullTerminated_below follows.positive

theorem follows_append_iff (other : StringView T) :
    (text.keep (text.view.append other).1).view.Follows
        (abstract ++ chars other.data other.length.toNat) ↔
      text.view.mSize.toNat + other.length.toNat < 2 ^ 64 := by
  rw [view_keep_append compiles follows]
  constructor
  · intro appended
    by_contra wraps
    exact follows.not_append other wraps appended
  · exact follows.append other

omit compiles follows in
theorem perform_append (text : Text T Capacity width) (other : StringView T) :
    text.perform (.append other) =
      some (text.keep (text.view.append other).1, some (text.view.append other).2) := by
  cases text <;> rfl

omit compiles follows in
theorem perform_addAssign (text : Text T Capacity width) (other : StringView T) :
    text.perform (.addAssign other) = some (text.keep (text.view.append other).1, none) := by
  cases text <;> rfl

omit compiles follows in
theorem perform_appendChar (text : Text T Capacity width) (value : T) :
    text.perform (.appendChar value) =
      some (text.keep (text.view.appendChar value).1, some (text.view.appendChar value).2) := by
  cases text <;> rfl

omit compiles follows in
theorem perform_truncate (text : Text T Capacity width) (newSize : U64) :
    text.perform (.truncate newSize) =
      if newSize ≤ text.view.mCapacity then
        some (text.keep { text.view with mSize := newSize }.ensureNullTerminated, none)
      else none := by
  cases text with
  | fixedString string =>
    change ((string.toMutableView.truncate newSize).map _).toOption.map _ =
      if newSize ≤ string.toMutableView.mCapacity then _ else _
    rw [MutableStringView.truncate]
    split <;> rfl
  | mutableView view =>
    change (view.truncate newSize).toOption.map _ = if newSize ≤ view.mCapacity then _ else _
    rw [MutableStringView.truncate]
    split <;> rfl

omit compiles follows in
theorem correct_of_perform {call : TextCall T} {after : Text T Capacity width}
    {reply : Option Bool} (performed : text.perform call = some (after, reply)) :
    Correct (text, abstract) call ↔ Promised text abstract call after reply := by
  constructor
  · intro correct
    exact correct _ _ performed
  · rintro promised _ _ again
    obtain ⟨rfl, rfl⟩ := Prod.mk.inj (Option.some.inj (performed.symm.trans again))
    exact promised

omit compiles follows in
/-- A call that returns nothing and does not truncate only has to follow the abstract string. -/
theorem correct_of_silent {call : TextCall T} {after : Text T Capacity width}
    (performed : text.perform call = some (after, none)) (other : ∀ n, call ≠ .truncate n) :
    Correct (text, abstract) call ↔ after.view.Follows (call.build abstract) := by
  rw [correct_of_perform performed]
  exact ⟨Promised.follows, fun follows => ⟨follows, nofun, fun n same => absurd same (other n)⟩⟩

theorem correct_append_iff (other : StringView T) : Correct (text, abstract) (.append other) ↔
    text.view.mSize.toNat + other.length.toNat < 2 ^ 64 := by
  rw [correct_of_perform (perform_append text other), ← follows_append_iff compiles follows other]
  constructor
  · exact Promised.follows
  · intro appended
    refine ⟨appended, ?_, nofun⟩
    rintro _ ⟨⟩
    rw [view_keep_append compiles follows]
    exact follows.append_reply other ((follows_append_iff compiles follows other).mp appended)

theorem correct_appendChar (value : T) : Correct (text, abstract) (.appendChar value) := by
  have appended := follows.appendChar value
  have kept : (text.keep (text.view.appendChar value).1).view = (text.view.appendChar value).1 :=
    view_keep compiles text _ (MutableStringView.appendChar_capacity _ value) appended.below
  rw [correct_of_perform (perform_appendChar text value)]
  refine ⟨kept.symm ▸ appended, ?_, nofun⟩
  rintro _ ⟨⟩
  rw [kept]
  exact follows.appendChar_reply value

theorem correct_truncate_iff (newSize : U64) : Correct (text, abstract) (.truncate newSize) ↔
    (newSize ≤ text.view.mCapacity →
      min newSize.toNat (text.view.mCapacity.toNat - 1) ≤ text.view.mSize.toNat) := by
  have performed := perform_truncate text newSize
  by_cases fits : newSize ≤ text.view.mCapacity
  · rw [if_pos fits] at performed
    have positive : 0 < ({ text.view with mSize := newSize } : MutableStringView T).mCapacity.toNat :=
      follows.positive
    have size := MutableStringView.ensureNullTerminated_size positive
    have kept := view_keep compiles text { text.view with mSize := newSize }.ensureNullTerminated rfl
      (MutableStringView.ensureNullTerminated_below positive)
    rw [correct_of_perform performed]
    constructor
    · rintro promised -
      have shorter := promised.truncate newSize rfl
      rw [kept, BitVec.le_def, size] at shorter
      exact shorter
    · intro shorter
      refine ⟨?_, nofun, ?_⟩
      · rw [kept]
        exact follows.truncate (shorter fits)
      · rintro _ ⟨⟩
        rw [kept, BitVec.le_def, size]
        exact shorter fits
  · rw [if_neg fits] at performed
    constructor
    · exact fun _ fits' => absurd fits' fits
    · rintro - after reply performed'
      cases performed.symm.trans performed'

/-- Every call keeps its promise exactly when it is careful. -/
theorem correct_iff_careful (positive : 0 < Capacity) (call : TextCall T) :
    Correct (text, abstract) call ↔ Careful (text, abstract) call := by
  cases call with
  | empty =>
    rw [correct_of_silent rfl fun _ same => by cases same]
    exact iff_of_true (FixedString.follows_empty positive) trivial
  | ofCString data =>
    rw [correct_of_silent rfl fun _ same => by cases same]
    exact iff_of_true (FixedString.follows_ofCString compiles positive data) trivial
  | ofStringView src =>
    rw [correct_of_silent rfl fun _ same => by cases same]
    have empty : (Text.fixedString (.empty : FixedString T Capacity width)).view.Follows [] :=
      FixedString.follows_empty positive
    have size := empty.size_eq
    rw [List.length_nil, Nat.min_zero] at size
    refine iff_of_true ((follows_append_iff compiles empty src).mpr ?_) trivial
    rw [size, Nat.zero_add]
    exact src.length.isLt
  | ofBuffer buffer size sized =>
    rw [correct_of_silent rfl fun _ same => by cases same]
    exact (MutableStringView.follows_chars_iff _ _ _).trans (and_iff_left buffer.isTerminated)
  | ofBufferLength buffer size length sized =>
    rw [correct_of_silent rfl fun _ same => by cases same]
    exact MutableStringView.follows_chars_iff _ _ _
  | copy =>
    cases text with
    | fixedString string =>
      rw [correct_of_silent rfl fun _ same => by cases same]
      exact iff_of_true (FixedString.follows_ofFixedString follows) trivial
    | mutableView view =>
      rw [correct_of_silent rfl fun _ same => by cases same]
      exact iff_of_true follows trivial
  | toMutableView =>
    cases text with
    | fixedString string =>
      rw [correct_of_silent rfl fun _ same => by cases same]
      exact iff_of_true follows trivial
    | mutableView view =>
      rw [correct_of_silent rfl fun _ same => by cases same]
      exact iff_of_true follows trivial
  | append other => exact correct_append_iff compiles follows other
  | appendChar value => exact iff_of_true (correct_appendChar compiles follows value) trivial
  | addAssign other =>
    rw [correct_of_silent (perform_addAssign text other) fun _ => nofun]
    exact follows_append_iff compiles follows other
  | truncate newSize => exact correct_truncate_iff compiles follows newSize

omit compiles follows in
theorem Correct.follows_step {state next : Tracked T Capacity width} {call : TextCall T}
    (correct : Correct state call) (stepped : step state call = some next) :
    next.1.view.Follows next.2 := by
  obtain ⟨⟨after, reply⟩, performed, rfl⟩ := Option.map_eq_some_iff.mp stepped
  exact (correct after reply performed).follows

omit follows in
/-- From an empty fixed string on, all calls keep their promise exactly when all of them are
careful. -/
theorem runMeets_text_iff_careful (positive : 0 < Capacity) (calls : List (TextCall T)) :
    let start : Tracked T Capacity width := (.fixedString .empty, [])
    RunMeets step Correct start calls ↔ RunMeets step Careful start calls := by
  intro start
  have preserved (source : Tracked T Capacity width) (call : TextCall T)
      (target : Tracked T Capacity width) (_ : source.1.view.Follows source.2)
      (correct : Correct source call) (stepped : step source call = some target) :
      target.1.view.Follows target.2 := correct.follows_step stepped
  have begins : start.1.view.Follows start.2 := FixedString.follows_empty positive
  refine runMeets_congr preserved (fun source call follows => ?_) begins calls
  exact correct_iff_careful compiles follows positive call

end Text

end Fixed

namespace Text

/-- Two characters. -/
def ab : CString (BitVec 8) where
  data i := if i = 0 then 0x61 else if i = 1 then 0x62 else 0
  length := 2
  isTerminated := rfl
  isFirst := by decide

/-- An empty string of eight characters. -/
def eightChars : Tracked (BitVec 8) 8 8 := (.fixedString .empty, [])

/-- Truncating to four characters makes two characters longer, and two characters are not a string
in a buffer of two. -/
theorem not_runMeets_eightChars :
    ¬ RunMeets step Correct eightChars [.ofCString ab, .truncate 4] ∧
    ¬ RunMeets step Correct eightChars [.ofBuffer ab 2 (by decide)] := by
  constructor
  · rintro ⟨-, rest⟩
    obtain ⟨correct, -⟩ := rest _ rfl
    have shorter := (correct _ _ rfl).truncate 4 rfl
    revert shorter
    decide
  · rintro ⟨correct, -⟩
    have below := (correct _ _ rfl).follows.below
    revert below
    decide

/-- Two characters can be appended to, doubled and cut. -/
theorem runMeets_correct_eightChars : RunMeets step Correct eightChars
    [.ofCString ab, .append ⟨ab.data, 2⟩, .copy, .appendChar 0x63, .truncate 3] :=
  (runMeets_text_iff_careful (by decide) (by decide) _).mpr (by decide)

end Text

end Hakkun.Container
