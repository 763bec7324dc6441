import Hakkun.Model.Util.WildcardBits

/-! # The union of wildcard patterns

The union keeps the bits that both masks have, and the values as they are. So a value of one side
has to be a value after it is cut to the other mask, and a value within both masks has to stand for
words that one side allows whatever their other bits are.
-/

namespace Hakkun.Util

namespace WildcardBits

variable {T : UnsignedIntegerType} {a b : WildcardBits T}

theorem test_iff (pattern : WildcardBits T) (value : BitVec T.cWidth) :
    pattern.test value = true ↔ value &&& pattern.mask ∈ pattern.bits := by
  simp only [test, List.any_eq_true, beq_iff_eq]
  constructor
  · rintro ⟨bits, member, rfl⟩
    exact member
  · exact fun member => ⟨_, member, rfl⟩

/-! ## Union -/

/-- The union of two patterns allows what one of them allows. -/
def UnionMatches (a b : WildcardBits T) : Prop :=
  ∀ value, (a.or b).test value = (a.test value || b.test value)

/-- Each value that its own mask allows is a value of one side after it is cut to the other mask. -/
def CutsTo (a b : WildcardBits T) : Prop :=
  ∀ value ∈ a.bits, value &&& a.mask = value → value &&& b.mask ∈ a.bits ++ b.bits

/-- A pattern has every completion of a value by bits that its mask has and another one has not. -/
def Completes (a : WildcardBits T) (other value : BitVec T.cWidth) : Prop :=
  ∀ more, value ||| (more &&& (a.mask &&& ~~~other)) ∈ a.bits

/-- The condition on masks and values under which the union is right. -/
structure Compatible (a b : WildcardBits T) : Prop where
  cutsLeft : a.CutsTo b
  cutsRight : b.CutsTo a
  completes : ∀ value ∈ a.bits ++ b.bits, value &&& (a.mask &&& b.mask) = value →
    a.Completes b.mask value ∨ b.Completes a.mask value

theorem test_or_iff (a b : WildcardBits T) (value : BitVec T.cWidth) :
    (a.or b).test value = true ↔ value &&& (a.mask &&& b.mask) ∈ a.bits ++ b.bits :=
  test_iff (a.or b) value

theorem unionMatches_iff_test : UnionMatches a b ↔ ∀ value,
    value &&& (a.mask &&& b.mask) ∈ a.bits ++ b.bits ↔
      value &&& a.mask ∈ a.bits ∨ value &&& b.mask ∈ b.bits := by
  refine forall_congr' fun value => ?_
  rw [← test_or_iff, ← test_iff, ← test_iff, ← Bool.or_eq_true]
  exact Bool.eq_iff_iff

/-- A word with the bits of a value within both masks, and others outside of the common ones. -/
theorem and_mask_of_within {w : ℕ} {value left right first second : BitVec w}
    (within : value &&& (left &&& right) = value) :
    (value ||| first &&& (left &&& ~~~right) ||| second &&& (right &&& ~~~left)) &&& left =
      value ||| first &&& (left &&& ~~~right) := by
  rw [← within]
  ext i inside
  simp only [BitVec.getElem_and, BitVec.getElem_or, BitVec.getElem_not]
  cases value[i] <;> cases left[i] <;> cases right[i] <;> cases first[i] <;> cases second[i] <;> rfl

theorem and_both_of_within {w : ℕ} {value left right first second : BitVec w}
    (within : value &&& (left &&& right) = value) :
    (value ||| first &&& (left &&& ~~~right) ||| second &&& (right &&& ~~~left)) &&&
      (left &&& right) = value := by
  rw [← within]
  ext i inside
  simp only [BitVec.getElem_and, BitVec.getElem_or, BitVec.getElem_not]
  cases value[i] <;> cases left[i] <;> cases right[i] <;> cases first[i] <;> cases second[i] <;> rfl

/-- What a mask keeps is what both keep and what it alone keeps. -/
theorem and_eq_or {w : ℕ} (value left right : BitVec w) :
    value &&& left = value &&& (left &&& right) ||| value &&& (left &&& ~~~right) := by
  ext i inside
  simp only [BitVec.getElem_and, BitVec.getElem_or, BitVec.getElem_not]
  cases value[i] <;> cases left[i] <;> cases right[i] <;> rfl

theorem and_and_self {w : ℕ} (value mask : BitVec w) :
    value &&& mask &&& mask = value &&& mask := by
  rw [BitVec.and_assoc, BitVec.and_self]

theorem compatible_of_unionMatches (union : UnionMatches a b) : Compatible a b := by
  rw [unionMatches_iff_test] at union
  constructor
  · intro value member within
    have allowed := (union value).mpr (.inl (within.symm ▸ member))
    rwa [← BitVec.and_assoc, within] at allowed
  · intro value member within
    have allowed := (union value).mpr (.inr (within.symm ▸ member))
    rw [BitVec.and_comm a.mask, ← BitVec.and_assoc, within, List.mem_append] at allowed
    exact List.mem_append.mpr allowed.symm
  · intro value member within
    by_contra! neither
    simp only [Completes, not_forall] at neither
    obtain ⟨⟨first, left⟩, second, right⟩ := neither
    have swapped : value &&& (b.mask &&& a.mask) = value := by rwa [BitVec.and_comm b.mask]
    have allowed := union (value ||| first &&& (a.mask &&& ~~~b.mask) |||
      second &&& (b.mask &&& ~~~a.mask))
    have other : (value ||| first &&& (a.mask &&& ~~~b.mask) |||
        second &&& (b.mask &&& ~~~a.mask)) &&& b.mask =
          value ||| second &&& (b.mask &&& ~~~a.mask) := by
      rw [BitVec.or_assoc, BitVec.or_comm (first &&& _), ← BitVec.or_assoc]
      exact and_mask_of_within swapped
    rw [and_both_of_within within, and_mask_of_within within, other] at allowed
    exact (allowed.mp member).elim left right

theorem unionMatches_of_compatible (compatible : Compatible a b) : UnionMatches a b := by
  rw [unionMatches_iff_test]
  obtain ⟨cutsLeft, cutsRight, completes⟩ := compatible
  intro value
  constructor
  · intro member
    rcases completes _ member (and_and_self _ _) with left | right
    · left
      rw [and_eq_or value a.mask b.mask]
      exact left value
    · right
      rw [and_eq_or value b.mask a.mask, BitVec.and_comm b.mask a.mask]
      exact right value
  · rintro (left | right)
    · have cut := cutsLeft _ left (and_and_self _ _)
      rwa [BitVec.and_assoc] at cut
    · have cut := cutsRight _ right (and_and_self _ _)
      rw [BitVec.and_assoc, BitVec.and_comm b.mask, List.mem_append] at cut
      exact List.mem_append.mpr cut.symm

/-! ## Text -/

/-- A word agrees with a text at every character but `?`; the last character is bit 0. -/
def Agrees (expr : List Char) (word : BitVec T.cWidth) : Prop :=
  ∀ i c, expr.reverse[i]? = some c → c ≠ '?' → word.getLsbD i = (c == '1')

/-- A pattern from a text matches the words that agree with it. -/
def TextMatches (T : UnsignedIntegerType) (expr : List Char) : Prop :=
  ∀ pattern : WildcardBits T, ofText expr = some pattern →
    ∀ word, pattern.test word = true ↔ Agrees expr word

theorem cWidth_le (T : UnsignedIntegerType) : T.cWidth ≤ 64 := by cases T <;> decide

theorem setWidth_bit {w : ℕ} (wide : w ≤ 64) (place : ℕ) :
    (bit place).setWidth w = 1#w <<< place := by
  apply BitVec.eq_of_getLsbD_eq
  intro i inside
  have small : i < 64 := Nat.lt_of_lt_of_le inside wide
  have some_bit : 0 < w := Nat.zero_lt_of_lt inside
  rw [bit, BitVec.getLsbD_setWidth, BitVec.getLsbD_shiftLeft, BitVec.getLsbD_shiftLeft,
    BitVec.getLsbD_one, BitVec.getLsbD_one, decide_eq_true inside, decide_eq_true small,
    decide_eq_true some_bit]
  rfl

theorem getLsbD_bit {i : ℕ} (place : ℕ) (inside : i < T.cWidth) :
    ((bit place).setWidth T.cWidth).getLsbD i = decide (i = place) := by
  rw [setWidth_bit (cWidth_le T), BitVec.getLsbD_shiftLeft, BitVec.getLsbD_one,
    decide_eq_true inside, decide_eq_true (Nat.zero_lt_of_lt inside), Bool.eq_iff_iff]
  simp only [Bool.true_and, Bool.and_eq_true, Bool.not_eq_true', decide_eq_false_iff_not,
    decide_eq_true_eq]
  omega

theorem getLsbD_bits {count i : ℕ} (bound : count ≤ T.cWidth) (inside : i < T.cWidth) :
    ((Hakkun.bits count).setWidth T.cWidth).getLsbD i = decide (i < count) := by
  have wide := cWidth_le T
  rw [BitVec.getLsbD_setWidth, decide_eq_true inside, Bool.true_and, BitVec.getLsbD,
    bits_toNat (bound.trans wide), Nat.testBit_two_pow_sub_one]

/-- The character for a bit, if the characters from some bit on have one. -/
def charAt (chars : List Char) (start i : ℕ) : Option Char :=
  if i < start then none else chars[i - start]?

theorem charAt_self (chars : List Char) (start : ℕ) : charAt chars (start + 1) start = none :=
  if_pos (Nat.lt_succ_self start)

theorem charAt_cons (c : Char) (chars : List Char) (start i : ℕ) :
    charAt (c :: chars) start i = if i = start then some c else charAt chars (start + 1) i := by
  rcases Nat.lt_trichotomy i start with before | rfl | after
  · rw [charAt, if_pos before, if_neg before.ne, charAt, if_pos (Nat.lt_succ_of_lt before)]
  · rw [charAt, if_neg (Nat.lt_irrefl i), Nat.sub_self, if_pos rfl, List.getElem?_cons_zero]
  · rw [charAt, if_neg (Nat.lt_asymm after), if_neg after.ne', charAt, if_neg (by omega),
      show i - start = i - (start + 1) + 1 by omega, List.getElem?_cons_succ]

/-- What a character makes of a bit of the mask and of the value. -/
theorem addBit_getLsbD {c : Char} {place i : ℕ} {pattern next : BitVec T.cWidth × BitVec T.cWidth}
    (success : addBit pattern (c, place) = some next) (inside : i < T.cWidth) :
    next.1.getLsbD i = (pattern.1.getLsbD i && !(decide (i = place) && c == '?')) ∧
      next.2.getLsbD i = (pattern.2.getLsbD i || (decide (i = place) && c == '1')) := by
  rw [addBit] at success
  split at success
  · rename_i wild
    obtain rfl : c = '?' := wild
    cases success
    rw [BitVec.getLsbD_and, BitVec.getLsbD_not, decide_eq_true inside, getLsbD_bit place inside]
    simp
  · rename_i one
    obtain rfl : c = '1' := one
    cases success
    simp [getLsbD_bit place inside]
  · rename_i zero
    obtain rfl : c = '0' := zero
    cases success
    simp
  · cases success

/-- What the characters from some bit on make of mask and value. -/
theorem foldlM_addBit {chars : List Char} {start : ℕ}
    {pattern result : BitVec T.cWidth × BitVec T.cWidth}
    (success : (chars.zipIdx start).foldlM addBit pattern = some result) {i : ℕ}
    (inside : i < T.cWidth) :
    result.1.getLsbD i = (pattern.1.getLsbD i && charAt chars start i != some '?') ∧
      result.2.getLsbD i = (pattern.2.getLsbD i || charAt chars start i == some '1') := by
  induction chars generalizing start pattern with
  | nil =>
    cases success
    simp [charAt]
  | cons c chars ih =>
    rw [List.zipIdx_cons, List.foldlM_cons, Option.bind_eq_bind, Option.bind_eq_some_iff] at success
    obtain ⟨next, first, rest⟩ := success
    obtain ⟨mask, value⟩ := addBit_getLsbD first inside
    obtain ⟨masks, values⟩ := ih rest
    constructor
    · rw [masks, mask, charAt_cons]
      split <;> rename_i here
      · rw [here, charAt_self]
        simp [bne]
      · simp [here]
    · rw [values, value, charAt_cons]
      split <;> rename_i here
      · rw [here, charAt_self]
        simp
      · simp [here]

theorem textMatches (T : UnsignedIntegerType) (expr : List Char) : TextMatches T expr := by
  intro pattern success word
  rw [ofText] at success
  split at success
  · cases success
  · rename_i short
    rw [gt_iff_lt, Nat.not_lt] at short
    obtain ⟨⟨mask, bits⟩, folded, rfl⟩ := Option.map_eq_some_iff.mp success
    have reads {i : ℕ} (inside : i < T.cWidth) :
        mask.getLsbD i = (decide (i < expr.length) && expr.reverse[i]? != some '?') ∧
          bits.getLsbD i = (expr.reverse[i]? == some '1') := by
      obtain ⟨masks, values⟩ := foldlM_addBit folded inside
      rw [getLsbD_bits short inside] at masks
      exact ⟨masks, values.trans (by simp [charAt])⟩
    rw [test_iff, List.mem_singleton]
    constructor
    · intro same i c found fixed
      have bound : i < expr.length := by
        rw [← List.length_reverse]
        exact (List.getElem?_eq_some_iff.mp found).1
      obtain ⟨masked, valued⟩ := reads (Nat.lt_of_lt_of_le bound short)
      have bits : (word &&& mask).getLsbD i = bits.getLsbD i := congrArg (BitVec.getLsbD · i) same
      have known : (some c != some '?') = true :=
        bne_iff_ne.mpr fun same => fixed (Option.some.inj same)
      rw [BitVec.getLsbD_and, masked, valued, found, decide_eq_true bound, known, Bool.and_true,
        Bool.and_true] at bits
      exact bits
    · intro agrees
      apply BitVec.eq_of_getLsbD_eq
      intro i inside
      obtain ⟨masked, valued⟩ := reads inside
      rw [BitVec.getLsbD_and, masked, valued]
      cases found : expr.reverse[i]? with
      | none =>
        rw [List.getElem?_eq_none_iff, List.length_reverse] at found
        simp [Nat.not_lt.mpr found]
      | some c =>
        have bound : i < expr.length := by
          rw [← List.length_reverse]
          exact (List.getElem?_eq_some_iff.mp found).1
        rcases eq_or_ne c '?' with rfl | fixed
        · simp
        · rw [agrees i c found fixed]
          simp [bound, fixed]

/-! ## Instructions -/

/-- A pattern of instructions. -/
def ofInstr (pattern : Hakkun.WildcardBits) : WildcardBits .u32 := ⟨pattern.mask, pattern.bits⟩

theorem test_ofInstr (pattern : Hakkun.WildcardBits) (value : U32) :
    (ofInstr pattern).test value = pattern.test value := rfl

theorem addBit_ofInstr (pattern : U32 × U32) (c : Char) (i : ℕ) :
    addBit (T := .u32) pattern (c, i) = Hakkun.WildcardBits.addBit pattern (c, i) := by
  have place : (bit i).setWidth 32 = 1#32 <<< i := setWidth_bit (by decide) i
  unfold Hakkun.WildcardBits.addBit
  rw [← place]
  rfl

/-- The constructor of a pattern of instructions is the one of 32 bits. -/
theorem ofText_ofInstr (expr : String) :
    ofText expr.toList = (Hakkun.WildcardBits.ofText expr).map ofInstr := by
  have same : addBit (T := .u32) = Hakkun.WildcardBits.addBit :=
    funext fun pattern => funext fun entry => addBit_ofInstr pattern entry.1 entry.2
  rw [ofText, same]
  change (if expr.toList.length > 32 then none else _) =
    (if expr.toList.length > 32 then none else _).map ofInstr
  split
  · rfl
  · rw [Option.map_map]
    rfl

end WildcardBits

end Hakkun.Util
