import Hakkun.Model.Sail.Init
import Mathlib.Data.List.Pairwise
import Mathlib.Tactic.IntervalCases

/-! # Self relocation through the symbol database

`loadSymbols` stores the address of a symbol in the slot of every entry that names one, 64 bits at a
time and without the entry's addend. That is the ELF relocation exactly when the addends are zero,
and, for a 32-bit entry and for what is read behind the PLT table, when the other bytes that are
written are in memory already.
-/

namespace Hakkun.Ro

theorem getLsbD_wordByte (word : U64) (i j : ℕ) (bound : j < 8) :
    (wordByte word i).getLsbD j = word.getLsbD (8 * i + j) := by
  simp only [wordByte, BitVec.getLsbD_setWidth, BitVec.getLsbD_ushiftRight, bound, decide_true,
    Bool.true_and]

/-- Bytes `first … last - 1` of two words agree exactly when the bits in them do. -/
theorem wordByte_eq_iff (left right : U64) (first last : ℕ) :
    (∀ i, first ≤ i → i < last → wordByte left i = wordByte right i) ↔
      ∀ k, 8 * first ≤ k → k < 8 * last → left.getLsbD k = right.getLsbD k := by
  constructor
  · intro same k lower upper
    have split : k = 8 * (k / 8) + k % 8 := (Nat.div_add_mod k 8).symm
    have bound : k % 8 < 8 := Nat.mod_lt _ (by decide)
    rw [split, ← getLsbD_wordByte _ _ _ bound, ← getLsbD_wordByte _ _ _ bound,
      same (k / 8) (by omega) (by omega)]
  · intro same i lower upper
    apply BitVec.eq_of_getLsbD_eq
    intro j bound
    rw [getLsbD_wordByte _ _ _ bound, getLsbD_wordByte _ _ _ bound,
      same (8 * i + j) (by omega) (by omega)]

theorem word_eq_iff (left right : U64) :
    (∀ i < 8, wordByte left i = wordByte right i) ↔ left = right := by
  have bits := wordByte_eq_iff left right 0 8
  simp only [Nat.mul_zero, Nat.zero_le, true_implies] at bits
  rw [bits]
  constructor
  · exact BitVec.eq_of_getLsbD_eq
  · rintro rfl k -
    rfl

theorem lowWord_eq_iff (left right : U64) :
    (∀ i < 4, wordByte left i = wordByte right i) ↔ left.setWidth 32 = right.setWidth 32 := by
  have bits := wordByte_eq_iff left right 0 4
  simp only [Nat.mul_zero, Nat.zero_le, true_implies] at bits
  rw [bits]
  constructor
  · intro same
    apply BitVec.eq_of_getLsbD_eq
    intro k bound
    rw [BitVec.getLsbD_setWidth, BitVec.getLsbD_setWidth, same k bound]
  · intro same k bound
    have bit := congrArg (fun word : U32 => word.getLsbD k) same
    simpa only [BitVec.getLsbD_setWidth, show k < 32 from bound, decide_true, Bool.true_and]
      using bit

theorem highWord_eq_iff (left right : U64) :
    (∀ i, 4 ≤ i → i < 8 → wordByte left i = wordByte right i) ↔ left >>> 32 = right >>> 32 := by
  rw [wordByte_eq_iff left right 4 8]
  constructor
  · intro same
    apply BitVec.eq_of_getLsbD_eq
    intro k bound
    rw [BitVec.getLsbD_ushiftRight, BitVec.getLsbD_ushiftRight]
    rcases lt_or_ge (32 + k) 64 with inside | outside
    · exact same (32 + k) (by omega) inside
    · rw [BitVec.getLsbD_of_ge _ _ outside, BitVec.getLsbD_of_ge _ _ outside]
  · intro same k lower upper
    have bit := congrArg (fun word : U64 => word.getLsbD (k - 32)) same
    simpa only [BitVec.getLsbD_ushiftRight, Nat.add_sub_cancel' (show 32 ≤ k from lower)] using bit

/-- A loaded word consists of the bytes in memory. -/
theorem wordByte_load (memory : Memory) (address : Ptr) {i : ℕ} (bound : i < 8) :
    wordByte (load memory address) i = memory (address + BitVec.ofNat 64 i) := by
  apply BitVec.eq_of_getLsbD_eq
  intro j small
  rw [getLsbD_wordByte _ _ _ small]
  unfold load
  interval_cases i <;> simp only [BitVec.getLsbD_append] <;> grind

theorem store_at (memory : Memory) (address : Ptr) (word : U64) {i : ℕ} (bound : i < 8) :
    store memory address word (address + BitVec.ofNat 64 i) = wordByte word i := by
  have offset : (address + BitVec.ofNat 64 i - address).toNat = i := by
    rw [BitVec.add_comm, BitVec.add_sub_cancel, BitVec.toNat_ofNat]
    omega
  rw [store, memcpy, offset, if_pos (show i < BitVec.toNat (8 : U64) from bound)]

theorem store_of_ne (memory : Memory) (address at_ : Ptr) (word : U64)
    (outside : ∀ i < 8, at_ ≠ address + BitVec.ofNat 64 i) :
    store memory address word at_ = memory at_ := by
  rw [store, memcpy, if_neg]
  intro inside
  apply outside _ inside
  rw [BitVec.ofNat_toNat, BitVec.setWidth_eq, BitVec.add_comm, BitVec.sub_add_cancel]

end Hakkun.Ro

namespace Hakkun.Sail.LoadInput

open Hakkun.Ro

variable (input : LoadInput)

/-- The symbol of an entry has a name. -/
def Named (entry : Ro.Entry) : Prop := (input.symbol entry).st_name ≠ 0

instance (entry : Ro.Entry) : Decidable (input.Named entry) := inferInstanceAs (Decidable (_ ≠ _))

/-- The bytes in the slot of an entry. -/
def width (entry : Ro.Entry) : ℕ := if elfRType entry.r_info = archAbs32 then 4 else 8

/-- The addend of an entry: explicit, or the word that is in its slot. -/
def addend (memory : Memory) : Ro.Entry → U64
  | .rel entry => load memory (input.slot (.rel entry))
  | .rela entry => entry.r_addend

/-- An entry of one of the tables that the claim of relocation is about. -/
def Relevant (entry : Ro.Entry) : Prop :=
  entry ∈ input.data.entries ∧ isAbsolute (elfRType entry.r_info) = true ∧ input.Named entry

/-- Every slot holds `S + A`, and no other byte has changed. -/
def Relocated (before after : Memory) : Prop :=
  (∀ entry, input.Relevant entry → ∀ S, input.lookup entry = some S → ∀ i < width entry,
    after (input.slot entry + BitVec.ofNat 64 i) =
      wordByte (S + input.addend before entry) i) ∧
  ∀ at_ : Ptr, (∀ entry, input.Relevant entry → ∀ i < width entry,
    at_ ≠ input.slot entry + BitVec.ofNat 64 i) → after at_ = before at_

/-- What storing the bare address `S` leaves right: the addend is zero in the entry's width, and
the bytes of the store that are not in a slot are in memory already. -/
def StoreExact (before : Memory) (entry : Ro.Entry) (S : Ptr) : Prop :=
  if entry ∈ input.data.entries then
    if elfRType entry.r_info = archAbs32 then
      (input.addend before entry).setWidth 32 = (0 : U32) ∧
        S >>> 32 = load before (input.slot entry) >>> 32
    else input.addend before entry = 0
  else S = load before (input.slot entry)

/-- Two stores touch different bytes. -/
def Apart (first second : Ro.Entry) : Prop :=
  ∀ i < 8, ∀ j < 8, input.slot first + BitVec.ofNat 64 i ≠ input.slot second + BitVec.ofNat 64 j

/-- What a linker promises about the tables: no entry of the PLT table has offset zero, and no two
named entries that are read share a word. -/
structure WellFormed : Prop where
  offsets : ∀ plt, input.data.plt = some plt → ∀ entry ∈ plt.table, entry.r_offset ≠ 0
  apart : ∀ visited, input.data.forEachPltRelRela = some visited →
    (visited.filter (input.Named ·)).Pairwise input.Apart

/-- Every store of the run is exact. -/
def StoresExact (before : Memory) : Prop :=
  ∀ visited, input.data.forEachPltRelRela = some visited → ∀ entry ∈ visited, input.Named entry →
    ∀ S, input.lookup entry = some S → input.StoreExact before entry S

variable {input}

theorem Apart.symm {first second : Ro.Entry} (apart : input.Apart first second) :
    input.Apart second first :=
  fun i inner j outer same => apart j outer i inner same.symm

/-- What the callbacks leave in memory: every named entry's word, and nothing else. -/
theorem loadSymbol_foldlM {visited : List Ro.Entry} {before after : Memory}
    (apart : (visited.filter (input.Named ·)).Pairwise input.Apart)
    (ran : visited.foldlM input.loadSymbol before = some after) :
    (∀ entry ∈ visited, input.Named entry → ∃ S, input.lookup entry = some S ∧
      ∀ i < 8, after (input.slot entry + BitVec.ofNat 64 i) = wordByte S i) ∧
    ∀ at_ : Ptr, (∀ entry ∈ visited, input.Named entry → ∀ i < 8,
      at_ ≠ input.slot entry + BitVec.ofNat 64 i) → after at_ = before at_ := by
  induction visited generalizing before with
  | nil =>
    obtain rfl : before = after := Option.some.inj ran
    exact ⟨fun entry member => (List.not_mem_nil member).elim, fun _ _ => rfl⟩
  | cons head rest ih =>
    rw [List.foldlM_cons, Option.bind_eq_bind, Option.bind_eq_some_iff] at ran
    obtain ⟨next, stored, ran⟩ := ran
    by_cases named : input.Named head
    · rw [List.filter_cons_of_pos (by simpa using named), List.pairwise_cons] at apart
      obtain ⟨written, kept⟩ := ih apart.2 ran
      rw [loadSymbol, if_pos (show (input.symbol head).st_name ≠ 0 from named),
        Option.map_eq_some_iff] at stored
      obtain ⟨S, found, rfl⟩ := stored
      constructor
      · intro entry member entryNamed
        rcases List.mem_cons.mp member with rfl | member
        · refine ⟨S, found, fun i bound => ?_⟩
          rw [kept, store_at _ _ _ bound]
          intro other otherMember otherNamed j small
          exact apart.1 other (List.mem_filter.mpr ⟨otherMember, by simpa using otherNamed⟩)
            i bound j small
        · exact written entry member entryNamed
      · intro at_ outside
        rw [kept at_ fun entry member => outside entry (List.mem_cons_of_mem _ member)]
        exact store_of_ne _ _ _ _ (outside head List.mem_cons_self named)
    · rw [List.filter_cons_of_neg (by simpa using named)] at apart
      obtain ⟨written, kept⟩ := ih apart ran
      rw [loadSymbol, if_neg (show ¬ (input.symbol head).st_name ≠ 0 from named)] at stored
      obtain rfl := Option.some.inj stored
      constructor
      · intro entry member entryNamed
        rcases List.mem_cons.mp member with rfl | member
        · exact (named entryNamed).elim
        · exact written entry member entryNamed
      · intro at_ outside
        exact kept at_ fun entry member => outside entry (List.mem_cons_of_mem _ member)

/-- Every entry that is visited is of an absolute type. -/
theorem isAbsolute_of_visited {visited : List Ro.Entry}
    (read : input.data.forEachPltRelRela = some visited) {entry : Ro.Entry}
    (member : entry ∈ visited) : isAbsolute (elfRType entry.r_info) = true := by
  rw [DynamicData.forEachPltRelRela, Option.map_eq_some_iff] at read
  obtain ⟨plt, read, rfl⟩ := read
  rw [List.mem_append, List.mem_append] at member
  rcases member with (member | member) | member
  · unfold DynamicData.forEachPlt at read
    split at read
    · obtain rfl := Option.some.inj read
      exact (List.not_mem_nil member).elim
    · simp only at read
      split_ifs at read
      obtain rfl := Option.some.inj read
      exact (List.mem_filter.mp member).2
  · exact (List.mem_filter.mp member).2
  · exact (List.mem_filter.mp member).2

/-- Every absolute entry of the tables is visited. -/
theorem visited_of_mem (wellFormed : input.WellFormed) {visited : List Ro.Entry}
    (read : input.data.forEachPltRelRela = some visited) {entry : Ro.Entry}
    (member : entry ∈ input.data.entries)
    (absolute : isAbsolute (elfRType entry.r_info) = true) : entry ∈ visited := by
  rw [DynamicData.forEachPltRelRela, Option.map_eq_some_iff] at read
  obtain ⟨plt, read, rfl⟩ := read
  rw [DynamicData.entries, List.mem_append, List.mem_append] at member
  rw [List.mem_append, List.mem_append]
  rcases member with (member | member) | member
  · refine .inl (.inl ?_)
    unfold DynamicData.forEachPlt at read
    cases present : input.data.plt with
    | none =>
      rw [present] at member
      exact (List.not_mem_nil member).elim
    | some table =>
      rw [present] at member read
      simp only at read
      split_ifs at read
      obtain rfl := Option.some.inj read
      refine List.mem_filter.mpr ⟨?_, absolute⟩
      rw [List.takeWhile_append_of_pos]
      · exact List.mem_append_left _ member
      · intro other otherMember
        simpa using wellFormed.offsets table present other otherMember
  · exact .inl (.inr (List.mem_filter.mpr ⟨member, absolute⟩))
  · exact .inr (List.mem_filter.mpr ⟨member, absolute⟩)

theorem apart_of_ne (wellFormed : input.WellFormed) {visited : List Ro.Entry}
    (read : input.data.forEachPltRelRela = some visited) {first second : Ro.Entry}
    (firstMember : first ∈ visited) (firstNamed : input.Named first)
    (secondMember : second ∈ visited) (secondNamed : input.Named second)
    (different : first ≠ second) : input.Apart first second :=
  have : Std.Symm input.Apart := ⟨fun _ _ => Apart.symm⟩
  (wellFormed.apart visited read).forall
    (List.mem_filter.mpr ⟨firstMember, decide_eq_true firstNamed⟩)
    (List.mem_filter.mpr ⟨secondMember, decide_eq_true secondNamed⟩) different

theorem width_le (entry : Ro.Entry) : width entry ≤ 8 := by
  unfold width
  split_ifs <;> decide

theorem ofNat_ne_of_ne {address : Ptr} {i j : ℕ} (first : i < 8) (second : j < 8)
    (different : i ≠ j) : address + BitVec.ofNat 64 i ≠ address + BitVec.ofNat 64 j := by
  intro same
  have offsets := congrArg BitVec.toNat same
  rw [BitVec.toNat_add, BitVec.toNat_add, BitVec.toNat_ofNat, BitVec.toNat_ofNat] at offsets
  have := address.isLt
  omega

/-- Storing the bare address is the relocation precisely when every store is exact. -/
theorem relocated_iff_storesExact (wellFormed : input.WellFormed) {before after : Memory}
    (ran : input.loadSymbols before = some after) :
    input.Relocated before after ↔ input.StoresExact before := by
  rw [loadSymbols, Option.bind_eq_some_iff] at ran
  obtain ⟨visited, read, ran⟩ := ran
  obtain ⟨written, kept⟩ := loadSymbol_foldlM (wellFormed.apart visited read) ran
  have visit {entry : Ro.Entry} (relevant : input.Relevant entry) : entry ∈ visited :=
    visited_of_mem wellFormed read relevant.1 relevant.2.1
  have stored {entry : Ro.Entry} (member : entry ∈ visited) (named : input.Named entry) {S : Ptr}
      (found : input.lookup entry = some S) {i : ℕ} (bound : i < 8) :
      after (input.slot entry + BitVec.ofNat 64 i) = wordByte S i := by
    obtain ⟨S', found', bytes⟩ := written entry member named
    obtain rfl : S = S' := Option.some.inj (found.symm.trans found')
    exact bytes i bound
  constructor
  · rintro ⟨slots, others⟩ visited' read' entry member named S found
    obtain rfl : visited = visited' := Option.some.inj (read.symm.trans read')
    -- a byte of the store outside the slots is what it was before
    have unchanged {i : ℕ} (bound : i < 8)
        (outside : input.Relevant entry → width entry ≤ i) :
        wordByte S i = wordByte (load before (input.slot entry)) i := by
      rw [wordByte_load _ _ bound, ← stored member named found bound]
      apply others
      intro other relevant j small
      by_cases same : other = entry
      · subst same
        have := outside relevant
        exact ofNat_ne_of_ne bound (small.trans_le (width_le other)) (by omega)
      · exact apart_of_ne wellFormed read member named (visit relevant) relevant.2.2
          (Ne.symm same) i bound j (small.trans_le (width_le other))
    unfold StoreExact
    split_ifs with table narrow
    · have relevant : input.Relevant entry := ⟨table, isAbsolute_of_visited read member, named⟩
      have four : width entry = 4 := if_pos narrow
      refine ⟨?_, ?_⟩
      · have low : S.setWidth 32 = (S + input.addend before entry).setWidth 32 := by
          rw [← lowWord_eq_iff]
          intro i bound
          rw [← stored member named found (show i < 8 by omega)]
          exact slots entry relevant S found i (by omega)
        rw [BitVec.setWidth_add _ _ (by decide)] at low
        exact (BitVec.self_eq_add_right.mp low)
      · rw [← highWord_eq_iff]
        exact fun i lower upper => unchanged upper fun _ => by omega
    · have relevant : input.Relevant entry := ⟨table, isAbsolute_of_visited read member, named⟩
      have eight : width entry = 8 := if_neg narrow
      have whole : S = S + input.addend before entry := by
        rw [← word_eq_iff]
        intro i bound
        rw [← stored member named found bound]
        exact slots entry relevant S found i (by omega)
      exact BitVec.self_eq_add_right.mp whole
    · rw [← word_eq_iff]
      exact fun i bound => unchanged bound fun relevant => (table relevant.1).elim
  · intro exact_
    refine ⟨?_, ?_⟩
    · intro entry relevant S found i bound
      have member := visit relevant
      rw [stored member relevant.2.2 found (bound.trans_le (width_le entry))]
      have store := exact_ visited read entry member relevant.2.2 S found
      unfold StoreExact at store
      rw [if_pos relevant.1] at store
      split_ifs at store with narrow
      · have four : width entry = 4 := if_pos narrow
        apply (lowWord_eq_iff _ _).mpr _ i (by omega)
        rw [BitVec.setWidth_add _ _ (by decide), store.1]
        exact (BitVec.add_zero _).symm
      · have bare : S + 0 = S := BitVec.add_zero S
        rw [store, bare]
    · intro at_ outside
      by_cases touched : ∃ entry ∈ visited, input.Named entry ∧ ∃ i < 8,
          at_ = input.slot entry + BitVec.ofNat 64 i
      · obtain ⟨entry, member, named, i, bound, rfl⟩ := touched
        obtain ⟨S, found, bytes⟩ := written entry member named
        rw [bytes i bound, ← wordByte_load before _ bound]
        have store := exact_ visited read entry member named S found
        unfold StoreExact at store
        split_ifs at store with table narrow
        · have four : width entry = 4 := if_pos narrow
          have relevant : input.Relevant entry := ⟨table, isAbsolute_of_visited read member, named⟩
          have upper : 4 ≤ i := by
            by_contra small
            exact outside entry relevant i (by omega) rfl
          exact (highWord_eq_iff _ _).mpr store.2 i upper bound
        · have eight : width entry = 8 := if_neg narrow
          have relevant : input.Relevant entry := ⟨table, isAbsolute_of_visited read member, named⟩
          exact (outside entry relevant i (by omega) rfl).elim
        · rw [store]
      · apply kept
        intro entry member named i bound same
        exact touched ⟨entry, member, named, i, bound, same⟩

/-- One data reference to `symbol + addend`, in a RELA table. -/
def reference (addend : U64) : LoadInput where
  moduleStart := 0x100000
  data :=
    { rel := []
      rela := [{ r_offset := 0x1000, r_info := 0x100000101, r_addend := addend }]
      plt := none
      dynsym := fun i => { st_name := BitVec.ofNat 32 i, st_info := 0x10 } }
  dynstr _ := [0x66]
  lookupSymbolFromDb _ _ := some 0x7000

theorem visited_reference (addend : U64) :
    (reference addend).data.forEachPltRelRela =
      some [.rela { r_offset := 0x1000, r_info := 0x100000101, r_addend := addend }] := by
  have absolute : isAbsolute (elfRType 0x100000101) = true := by decide
  simp only [DynamicData.forEachPltRelRela, DynamicData.forEachPlt, DynamicData.forEachRel,
    DynamicData.forEachRela, reference, List.map_nil, List.filter_nil, List.map_cons, Option.map_some,
    List.nil_append, List.filter_cons_of_pos, Ro.Entry.r_info, absolute]

theorem wellFormed_reference (addend : U64) : (reference addend).WellFormed := by
  constructor
  · intro plt present
    cases present
  · intro visited read
    rw [visited_reference] at read
    obtain rfl := Option.some.inj read
    exact (List.pairwise_singleton _ _).filter _

theorem loadSymbols_reference (addend : U64) (before : Memory) :
    (reference addend).loadSymbols before = some (store before 0x101000 0x7000) := by
  have named : (BitVec.ofNat 32 (elfRSym 0x100000101) : U32) ≠ 0 := by decide
  have slot : (0x100000 : U64) + 0x1000 = 0x101000 := by decide
  have stored : (reference addend).loadSymbol before
      (.rela { r_offset := 0x1000, r_info := 0x100000101, r_addend := addend }) =
        some (store before 0x101000 0x7000) := by
    refine (if_pos named).trans ?_
    exact congrArg (fun address => some (store before address 0x7000)) slot
  rw [loadSymbols, visited_reference, Option.bind_some, List.foldlM_cons, stored]
  rfl

theorem relocated_reference :
    (reference 0).Relocated (fun _ => 0) (store (fun _ => 0) 0x101000 0x7000) := by
  refine (relocated_iff_storesExact (wellFormed_reference 0)
    (loadSymbols_reference 0 fun _ => 0)).mpr ?_
  intro visited read entry member named S found
  rw [visited_reference] at read
  obtain rfl := Option.some.inj read
  obtain rfl := List.mem_singleton.mp member
  rfl

/-- A reference to the second word of an object gets the address of the object. -/
theorem reference_not_relocated :
    (reference 8).loadSymbols (fun _ => 0) = some (store (fun _ => 0) 0x101000 0x7000) ∧
      ¬ (reference 8).Relocated (fun _ => 0) (store (fun _ => 0) 0x101000 0x7000) := by
  refine ⟨loadSymbols_reference 8 _, ?_⟩
  rintro ⟨slots, -⟩
  have low := slots (.rela { r_offset := 0x1000, r_info := 0x100000101, r_addend := 8 })
    (by unfold Relevant Named; decide) 0x7000 rfl 0 (by decide)
  revert low
  decide

end Hakkun.Sail.LoadInput
