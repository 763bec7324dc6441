import Hakkun.Model.Hook.MapUtil

/-! # Random placement and where a mapping fits

With a page more than the request in the searched region nothing wraps around, and an address that
passes the test is a placement. Nothing else ends the loop but a query that fails: a request without
a placement is refused by the kernel or never.
-/

namespace Hakkun.Hook

open Svc

/-- The regions as the kernel reports them: the searched region begins at a page, no region wraps
around, a query gives the region around the address, and free memory ends before 2 to the 64. -/
structure Kernel where
  info : MapInfo
  query : QueryAnswers
  aligned : info.regionStart.toNat % 4096 = 0
  region : info.regionStart.toNat + info.regionSize.toNat < 2 ^ 64
  aliasEnd : info.aliasStart.toNat + info.aliasSize.toNat < 2 ^ 64
  heapEnd : info.heapStart.toNat + info.heapSize.toNat < 2 ^ 64
  contains : ∀ turn address memInfo, query turn address = some memInfo →
    memInfo.base_address.toNat ≤ address.toNat ∧
      address.toNat < memInfo.base_address.toNat + memInfo.size.toNat
  free : ∀ turn address memInfo, query turn address = some memInfo → memInfo.state = .Free →
    memInfo.base_address.toNat + memInfo.size.toNat < 2 ^ 64

/-- A size rounded up to pages. -/
def pageRounded (size : ℕ) : ℕ := (size + 4095) / 4096 * 4096

/-- Two ranges have no address in common. -/
def Apart (first firstSize second secondSize : ℕ) : Prop :=
  ∀ address, first ≤ address → address < first + firstSize → second ≤ address →
    ¬ address < second + secondSize

namespace Kernel

variable (kernel : Kernel) (searchSize : U64) (random : ℕ → U64)

/-- The loop of `findMap` after some turns. -/
def findMap (turns : ℕ) : FindStatus := kernel.info.findMap searchSize random kernel.query turns

/-- The address that a turn tries. -/
def tried (turn : ℕ) : Ptr := kernel.info.attempt (alignUpPage searchSize) (random turn)

/-- Where a mapping of the size can go. -/
structure Placement (address : Ptr) : Prop where
  aligned : address.toNat % 4096 = 0
  above : kernel.info.regionStart.toNat ≤ address.toNat
  below : address.toNat + pageRounded searchSize.toNat ≤
    kernel.info.regionStart.toNat + kernel.info.regionSize.toNat
  free : ∃ turn memInfo, kernel.query turn address = some memInfo ∧ memInfo.state = .Free ∧
    memInfo.base_address.toNat ≤ address.toNat ∧
      address.toNat + pageRounded searchSize.toNat ≤
        memInfo.base_address.toNat + memInfo.size.toNat
  aliasRegion : Apart address.toNat (pageRounded searchSize.toNat) kernel.info.aliasStart.toNat
    kernel.info.aliasSize.toNat
  heapRegion : Apart address.toNat (pageRounded searchSize.toNat) kernel.info.heapStart.toNat
    kernel.info.heapSize.toNat

/-- A turn divides by a number that is not zero, and its products and sums fit. -/
structure TurnExact (size random : U64) (memInfo? : Option MemoryInfo) : Prop where
  divisor : kernel.info.maxPage size ≠ 0
  product : (random % kernel.info.maxPage size).toNat * cPageSize.toNat < 2 ^ 64
  attempt : kernel.info.regionStart.toNat +
    (random % kernel.info.maxPage size * cPageSize).toNat < 2 ^ 64
  stop : ∀ memInfo, memInfo? = some memInfo → memInfo.state = .Free →
    (kernel.info.attempt size random).toNat + size.toNat < 2 ^ 64 ∧
      memInfo.base_address.toNat + memInfo.size.toNat < 2 ^ 64
  regions : kernel.info.aliasStart.toNat + kernel.info.aliasSize.toNat < 2 ^ 64 ∧
    kernel.info.heapStart.toNat + kernel.info.heapSize.toNat < 2 ^ 64

/-- What `findMap` has to do. -/
structure Places : Prop where
  rounding : searchSize.toNat + (cPageSize - 1).toNat < 2 ^ 64
  difference : alignUpPage searchSize ≤ kernel.info.regionSize
  turns : ∀ turn, kernel.findMap searchSize random turn = .running →
    kernel.TurnExact (alignUpPage searchSize) (random turn)
      (kernel.query turn (kernel.tried searchSize random turn))
  valid : ∀ turns address, kernel.findMap searchSize random turns = .found address →
    kernel.Placement searchSize address
  rejects : (∀ address, ¬ kernel.Placement searchSize address) →
    ∃ turns, kernel.findMap searchSize random turns = .aborted

/-- The size can be rounded, there is a page more than it in the region, and it fits somewhere or
the kernel refuses a query. -/
structure HasRoom : Prop where
  rounding : searchSize.toNat + 4095 < 2 ^ 64
  room : pageRounded searchSize.toNat + 4096 ≤ kernel.info.regionSize.toNat
  ends : (∃ address, kernel.Placement searchSize address) ∨
    ∃ turn, kernel.query turn (kernel.tried searchSize random turn) = none

variable {kernel searchSize random}

/-! ## Arithmetic -/

theorem alignUpPage_toNat (rounding : searchSize.toNat + 4095 < 2 ^ 64) :
    (alignUpPage searchSize).toNat = pageRounded searchSize.toNat := by
  have mask : cPageSize - 1 = bits 12 := rfl
  have sum : (searchSize + bits 12).toNat = searchSize.toNat + 4095 := by
    rw [BitVec.toNat_add, bits_toNat (by decide)]
    exact Nat.mod_eq_of_lt rounding
  rw [alignUpPage, mask, and_not_bits_toNat _ (by decide), sum, pageRounded]
  norm_num only
  omega

theorem regionsOverlap_eq_false {a aSize b bSize : U64} (first : a.toNat + aSize.toNat < 2 ^ 64)
    (second : b.toNat + bSize.toNat < 2 ^ 64) (test : regionsOverlap a aSize b bSize = false) :
    Apart a.toNat aSize.toNat b.toNat bSize.toNat := by
  rw [regionsOverlap, Bool.and_eq_false_iff, decide_eq_false_iff_not, decide_eq_false_iff_not,
    BitVec.lt_def, BitVec.lt_def, BitVec.toNat_add_of_lt first,
    BitVec.toNat_add_of_lt second] at test
  intro address after before inside
  omega

theorem maxPage_toNat {size : U64} (difference : size ≤ kernel.info.regionSize) :
    (kernel.info.maxPage size).toNat = (kernel.info.regionSize.toNat - size.toNat) / 4096 := by
  rw [MapInfo.maxPage, BitVec.toNat_udiv, BitVec.toNat_sub_of_le difference]
  rfl

/-! ## A turn -/

/-- What a random number makes of the region. -/
structure Attempt (kernel : Kernel) (size random : U64) : Prop where
  divisor : kernel.info.maxPage size ≠ 0
  product : (random % kernel.info.maxPage size * cPageSize).toNat =
    (random % kernel.info.maxPage size).toNat * 4096
  attempt : (kernel.info.attempt size random).toNat = kernel.info.regionStart.toNat +
    (random % kernel.info.maxPage size).toNat * 4096
  below : (random % kernel.info.maxPage size).toNat * 4096 + size.toNat + 4096 ≤
    kernel.info.regionSize.toNat

theorem attempt_of_room {size : U64} (room : size.toNat + 4096 ≤ kernel.info.regionSize.toNat)
    (random : U64) : kernel.Attempt size random := by
  have difference : size ≤ kernel.info.regionSize := BitVec.le_def.mpr (by omega)
  have pages := maxPage_toNat difference
  have positive : 0 < (kernel.info.maxPage size).toNat := by omega
  have divisor : kernel.info.maxPage size ≠ 0 := by
    intro zero
    rw [zero] at positive
    exact absurd positive (by decide)
  have drawn : (random % kernel.info.maxPage size).toNat < (kernel.info.maxPage size).toNat := by
    rw [BitVec.toNat_umod]
    exact Nat.mod_lt _ positive
  have region := kernel.region
  have page : cPageSize.toNat = 4096 := rfl
  have product : (random % kernel.info.maxPage size * cPageSize).toNat =
      (random % kernel.info.maxPage size).toNat * 4096 := by
    rw [BitVec.toNat_mul, page]
    omega
  refine ⟨divisor, product, ?_, by omega⟩
  rw [MapInfo.attempt, BitVec.toNat_add_of_lt (by rw [product]; omega), product]

/-- An address that passes the test of a turn is a placement. -/
theorem placement_of_accepts (rounding : searchSize.toNat + 4095 < 2 ^ 64)
    (room : pageRounded searchSize.toNat + 4096 ≤ kernel.info.regionSize.toNat) {turn : ℕ}
    {memInfo : MemoryInfo}
    (answer : kernel.query turn (kernel.tried searchSize random turn) = some memInfo)
    (accepts : kernel.info.accepts (alignUpPage searchSize) (kernel.tried searchSize random turn)
      memInfo = true) : kernel.Placement searchSize (kernel.tried searchSize random turn) := by
  have rounded := alignUpPage_toNat rounding
  obtain ⟨_, _, attempt, below⟩ := attempt_of_room (rounded ▸ room) (random turn)
  have region := kernel.region
  have aligned := kernel.aligned
  simp only [MapInfo.accepts, Bool.and_eq_true, beq_iff_eq, decide_eq_true_eq,
    Bool.not_eq_true'] at accepts
  obtain ⟨⟨⟨free, fits⟩, aliasApart⟩, heapApart⟩ := accepts
  rw [rounded] at below
  rw [← tried] at attempt
  have stop : (kernel.tried searchSize random turn).toNat + (alignUpPage searchSize).toNat <
      2 ^ 64 := by
    rw [attempt, rounded]
    omega
  have freeEnd := kernel.free turn _ memInfo answer free
  rw [BitVec.le_def, BitVec.toNat_add_of_lt stop, BitVec.toNat_add_of_lt freeEnd, rounded] at fits
  constructor
  · omega
  · omega
  · omega
  · exact ⟨turn, memInfo, answer, free, (kernel.contains turn _ memInfo answer).1, fits⟩
  · rw [← rounded]
    exact regionsOverlap_eq_false stop kernel.aliasEnd aliasApart
  · rw [← rounded]
    exact regionsOverlap_eq_false stop kernel.heapEnd heapApart

/-! ## The loop -/

variable (kernel searchSize random) in
/-- A turn of the loop that ends it. -/
theorem findMapLoop_found {turns turn : ℕ} {address : Ptr}
    (found : kernel.info.findMapLoop (alignUpPage searchSize) random kernel.query turns turn =
      .found address) : ∃ last memInfo, address = kernel.tried searchSize random last ∧
        kernel.query last (kernel.tried searchSize random last) = some memInfo ∧
          kernel.info.accepts (alignUpPage searchSize) (kernel.tried searchSize random last)
            memInfo = true := by
  induction turns generalizing turn with
  | zero => cases found
  | succ turns ih =>
    rw [MapInfo.findMapLoop] at found
    split at found
    · cases found
    · rename_i memInfo answer
      split at found
      · rename_i accepted
        cases found
        exact ⟨turn, memInfo, rfl, answer, accepted⟩
      · exact ih found

theorem findMapLoop_aborted {turns turn : ℕ}
    (aborted : kernel.info.findMapLoop (alignUpPage searchSize) random kernel.query turns turn =
      .aborted) : ∃ last, kernel.query last (kernel.tried searchSize random last) = none := by
  induction turns generalizing turn with
  | zero => cases aborted
  | succ turns ih =>
    rw [MapInfo.findMapLoop] at aborted
    split at aborted
    · rename_i failed
      exact ⟨turn, failed⟩
    · split at aborted
      · cases aborted
      · exact ih aborted

/-- A query that fails ends the loop, if nothing did before. -/
theorem findMapLoop_of_none {later turn : ℕ}
    (failed : kernel.query (turn + later) (kernel.tried searchSize random (turn + later)) = none) :
    kernel.info.findMapLoop (alignUpPage searchSize) random kernel.query (later + 1) turn ≠
      .running := by
  induction later generalizing turn with
  | zero =>
    rw [Nat.add_zero] at failed
    rw [MapInfo.findMapLoop, ← tried, failed]
    nofun
  | succ later ih =>
    rw [MapInfo.findMapLoop]
    split
    · nofun
    · split
      · nofun
      · rw [Nat.add_comm later, ← Nat.add_assoc] at failed
        exact ih failed

/-- Memory below 4 GiB that is free, with two pages of it to search. -/
def twoPages : Kernel where
  info := ⟨0x1000, 0x2000, 0, 0, 0, 0⟩
  query _ address :=
    if address.toNat < 2 ^ 32 then some ⟨0, 2 ^ 32, .Free, .other⟩ else none
  aligned := rfl
  region := by decide
  aliasEnd := by decide
  heapEnd := by decide
  contains := by
    intro _ address memInfo answer
    split_ifs at answer with below
    cases answer
    exact ⟨Nat.zero_le _, below⟩
  free := by
    intro _ address memInfo answer _
    split_ifs at answer
    cases answer
    decide

end Kernel

end Hakkun.Hook
