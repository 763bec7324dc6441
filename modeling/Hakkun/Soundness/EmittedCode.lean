import Hakkun.Model.Hook.Trampoline
import Hakkun.Soundness.EmittedWords

/-! # What emitted code does

The words of an emitted move, executed where they are emitted, leave the value in the register, and
those of an emitted branch lead to the target through no other register than `IP0`. The thresholds
by which a form is chosen are within the range of what it emits, so nothing is aborted while four
words are free for a move and five for a branch.
-/

namespace Hakkun.Hook

open A64

/-! ## Additions to a buffer -/

namespace VecSpan

/-- The additions of words one after the other. -/
def addAll (out : VecSpan) (words : List Instr) : Option VecSpan := words.foldlM VecSpan.add out

theorem addAll_eq {out : VecSpan} {words : List Instr}
    (room : out.mSize + words.length ≤ out.mCapacity) (whole : out.mCapacity ≤ out.mData.length) :
    out.addAll words = some (out.append words) := by
  induction words generalizing out with
  | nil =>
    rw [append, List.append_nil, List.length_nil, Nat.add_zero, List.take_append_drop]
    rfl
  | cons word words ih =>
    rw [List.length_cons] at room
    have added : out.add word = some
        { out with mData := out.mData.set out.mSize word, mSize := out.mSize + 1 } :=
      if_pos (by omega)
    rw [addAll, List.foldlM_cons, added]
    refine (ih ?_ ?_).trans ?_
    · change out.mSize + 1 + words.length ≤ out.mCapacity
      omega
    · rw [List.length_set]
      exact whole
    · have split := List.set_eq_take_append_cons_drop (l := out.mData) (i := out.mSize) (a := word)
      rw [if_pos (by omega)] at split
      have before : (out.mData.set out.mSize word).take (out.mSize + 1) =
          out.mData.take out.mSize ++ [word] := by
        have length : (out.mData.take out.mSize).length = out.mSize :=
          List.length_take_of_le (by omega)
        simp [split, List.take_append, length]
      have after : (out.mData.set out.mSize word).drop (out.mSize + 1 + words.length) =
          out.mData.drop (out.mSize + (words.length + 1)) := by
        rw [List.drop_set_of_lt (by omega)]
        congr 1
        omega
      simp only [append, before, after, List.length_cons, List.append_assoc, List.singleton_append]
      congr 2
      omega

theorem addAll_cons (out : VecSpan) (word : Instr) (words : List Instr) :
    out.addAll (word :: words) = (out.add word).bind fun out => out.addAll words := by
  rw [addAll, List.foldlM_cons]
  rfl

theorem addAll_append (out : VecSpan) (first second : List Instr) :
    out.addAll (first ++ second) = (out.addAll first).bind fun out => out.addAll second := by
  rw [addAll, List.foldlM_append]
  rfl

theorem addAll_one (out : VecSpan) (word : Instr) : out.addAll [word] = out.add word := by
  rw [addAll, List.foldlM_cons]
  cases out.add word <;> rfl

end VecSpan

/-! ## One instruction -/

variable {r : IRegType} {s : State}

theorem runsOn_adr {value : U64} (back : -(2 ^ 20 : ℤ) ≤ (value - s.pc).toInt)
    (ahead : (value - s.pc).toInt < 2 ^ 20) :
    RunsOn [(A64.Instr.adr (field r) ((value - s.pc).setWidth 21)).encode] s
      (s.set (field r) value) := by
  apply RunsOn.set
  have offset := (Math.signExtend_setWidth_eq_iff (show 20 < 64 by decide) (value - s.pc)).mpr
    ⟨back, ahead⟩
  rw [A64.Instr.decode_encode (.adr _ _) trivial, execute, offset, BitVec.add_comm,
    BitVec.sub_add_cancel]

/-- A whole number of pages is what is left of it without the bits of a page. -/
theorem shiftLeft_sshiftRight {value : U64} (whole : value.toNat % 4096 = 0) :
    value.sshiftRight 12 <<< 12 = value := by
  apply BitVec.eq_of_getLsbD_eq
  intro i bound
  rw [BitVec.getLsbD_shiftLeft, BitVec.getLsbD_sshiftRight, decide_eq_true bound, Bool.true_and]
  rcases Nat.lt_or_ge i 12 with low | high
  · have clear : value.getLsbD i = false := by
      have bits := Nat.testBit_mod_two_pow value.toNat 12 i
      rw [show value.toNat % 2 ^ 12 = 0 from whole, Nat.zero_testBit, decide_eq_true low,
        Bool.true_and] at bits
      exact bits.symm
    rw [decide_eq_true low, clear]
    rfl
  · rw [decide_eq_false (Nat.not_lt.mpr high), decide_eq_false (by omega), if_pos (by omega),
      Nat.add_sub_cancel' high]
    rfl

theorem runsOn_adrp {upper : U64} (aligned : upper.toNat % 4096 = 0)
    (back : -(2 ^ 20 : ℤ) ≤ ((upper - (s.pc &&& ~~~bits 12)).sshiftRight 12).toInt)
    (ahead : ((upper - (s.pc &&& ~~~bits 12)).sshiftRight 12).toInt < 2 ^ 20) :
    RunsOn [(A64.Instr.adrp (field r)
        (((upper - (s.pc &&& ~~~bits 12)).sshiftRight 12).setWidth 21)).encode] s
      (s.set (field r) upper) := by
  apply RunsOn.set
  have offset := (Math.signExtend_setWidth_eq_iff (show 20 < 64 by decide)
    ((upper - (s.pc &&& ~~~bits 12)).sshiftRight 12)).mpr ⟨back, ahead⟩
  have whole : (upper - (s.pc &&& ~~~bits 12)).sshiftRight 12 <<< 12 =
      upper - (s.pc &&& ~~~bits 12) := by
    have page := and_not_bits_toNat s.pc (show 12 ≤ 64 by decide)
    apply shiftLeft_sshiftRight
    rw [BitVec.toNat_sub, page]
    omega
  rw [A64.Instr.decode_encode (.adrp _ _) trivial, execute, adrpAddress, offset, whole]
  congr
  rw [show (0xfff#64 : U64) = bits 12 from rfl, BitVec.add_comm, BitVec.sub_add_cancel]

theorem runsOn_add (general : General r) (value : U64)
    (upper : s.registers (field r) = value &&& ~~~bits 12) :
    RunsOn [addWord r value] s (s.set (field r) value) := by
  apply RunsOn.set
  rw [addWord, A64.Instr.decode_encode (.addSubImm ..) trivial, execute, State.readSp, State.setSp,
    if_neg general.field_ne, if_neg general.field_ne, upper]
  congr
  have low := and_not_bits_toNat value (show 12 ≤ 64 by decide)
  have below := Nat.mod_le value.toNat (2 ^ 12)
  rw [if_neg Bool.false_ne_true, ← BitVec.toNat_inj, BitVec.toNat_add, low, BitVec.toNat_setWidth,
    BitVec.toNat_setWidth]
  omega

theorem runsOn_movk (general : General r) (value : U64) (i : ℕ) :
    RunsOn [movkWord r value i] s
      (s.set (field r) (insertHalf (s.registers (field r)) (BitVec.ofNat 2 i) (half value i))) := by
  apply RunsOn.set
  have allocated : (A64.Instr.moveWide true Instr.movk (BitVec.ofNat 2 i) (half value i)
      (field r)).WellFormed := ⟨by decide, fun narrow => absurd narrow (by decide)⟩
  rw [movkWord, A64.Instr.decode_encode _ allocated, execute, if_pos rfl,
    Registers.read_of_ne _ general.field_ne]

/-! ## A move by its 16-bit parts -/

/-- The parts of the value that the register does not have yet. -/
def missing (value pc : U64) (indices : List ℕ) : List ℕ :=
  indices.filter fun i => half value i ≠ half pc i

/-- What a register is after parts are inserted. -/
def inserted (value : U64) (indices : List ℕ) (start : U64) : U64 :=
  indices.foldl (fun old i => insertHalf old (BitVec.ofNat 2 i) (half value i)) start

theorem half_inserted {value : U64} {indices : List ℕ} (small : ∀ i ∈ indices, i < 4) (start : U64)
    {i : ℕ} (inside : i < 4) :
    half (inserted value indices start) i =
      if i ∈ indices then half value i else half start i := by
  induction indices generalizing start with
  | nil => rfl
  | cons j indices ih =>
    have number : (BitVec.ofNat 2 j).toNat = j := by
      rw [BitVec.toNat_ofNat]
      exact Nat.mod_eq_of_lt (small j List.mem_cons_self)
    have rest := ih (fun i member => small i (List.mem_cons_of_mem _ member))
      (insertHalf start (BitVec.ofNat 2 j) (half value j))
    rw [half_insertHalf _ _ _ inside, number] at rest
    refine rest.trans ?_
    simp only [List.mem_cons]
    grind

theorem runsOn_movks (general : General r) (value : U64) (indices : List ℕ) (s : State) :
    RunsOn (indices.map (movkWord r value)) s
      (s.moved (field r) (inserted value indices (s.registers (field r))) indices.length) := by
  induction indices generalizing s with
  | nil =>
    have same : s.moved (field r) (inserted value [] (s.registers (field r))) 0 = s := by
      ext1
      · exact Registers.write_self ..
      · rfl
      · rfl
      · exact BitVec.add_zero _
      · rfl
    rw [List.length_nil, same]
    exact RunsOn.nil s
  | cons i indices ih =>
    have rest := (runsOn_movk general value i (s := s)).trans (ih _)
    rw [State.moved_set] at rest
    simpa [inserted] using rest

/-! ## Moves -/

/-- Words that leave a value in a register and go on. -/
def Leaves (words : List Instr) (r : IRegType) (value pc : U64) : Prop :=
  ∀ s : State, s.pc = pc → RunsOn words s (s.moved (field r) value words.length)

def adrWord (r : IRegType) (value pc : U64) : Instr :=
  (A64.Instr.adr (field r) ((value - pc).setWidth 21)).encode

def adrpWord (r : IRegType) (upper pc : U64) : Instr :=
  (A64.Instr.adrp (field r) (((upper - (pc &&& ~~~bits 12)).sshiftRight 12).setWidth 21)).encode

/-- The value and the program counter have one of their parts in common. -/
def anyMatch (value pc : U64) : Bool := (List.range 4).any fun i => half value i == half pc i

theorem anyMatch_iff (value pc : U64) :
    anyMatch value pc = true ↔ ∃ i < 4, half value i = half pc i := by
  simp only [anyMatch, List.any_eq_true, List.mem_range, beq_iff_eq]

/-- The words of a move. -/
def moveWords (r : IRegType) (value pc : U64) : List Instr :=
  let upper := value &&& ~~~bits 12
  if abs (pc - value) ≤ adrAdrpMaxDiff then [adrWord r value pc]
  else if abs ((pc &&& ~~~bits 12) - upper) / cPageSize ≤ adrAdrpMaxDiff then
    adrpWord r upper pc :: if upper ≠ value then [addWord r value] else []
  else
    (if anyMatch value pc then [adrWord r pc pc] else []) ++
      (missing value pc (List.range 4)).map (movkWord r value)

/-- A value in reach of an `ADR`. -/
theorem near_iff {value pc : U64} : abs (pc - value) ≤ adrAdrpMaxDiff ↔
    -(2 ^ 20 : ℤ) < (value - pc).toInt ∧ (value - pc).toInt < 2 ^ 20 := by
  rw [abs_sub_le_iff, show adrAdrpMaxDiff.toNat = 2 ^ 20 - 1 from rfl]
  omega

/-- A page in reach of an `ADRP`. -/
theorem pages_near_iff {upper page : U64} (whole : (upper - page).toNat % 4096 = 0) :
    abs (page - upper) / cPageSize ≤ adrAdrpMaxDiff ↔
      -(2 ^ 20 : ℤ) < ((upper - page).sshiftRight 12).toInt ∧
        ((upper - page).sshiftRight 12).toInt < 2 ^ 20 := by
  have signed := (upper - page).toInt_eq_toNat_cond
  rw [abs_sub_comm, BitVec.le_def, BitVec.toNat_udiv, abs_toNat, toInt_sshiftRight_page,
    show adrAdrpMaxDiff.toNat = 2 ^ 20 - 1 from rfl, show cPageSize.toNat = 4096 from rfl]
  split at signed <;> omega

/-- The parts that are inserted complete the value. -/
theorem inserted_missing {value pc start : U64}
    (same : ∀ i < 4, half value i = half pc i → half start i = half value i) :
    inserted value (missing value pc (List.range 4)) start = value := by
  apply eq_of_halves
  intro i inside
  have small : ∀ i ∈ missing value pc (List.range 4), i < 4 := fun i member =>
    List.mem_range.mp (List.mem_of_mem_filter member)
  rw [half_inserted small start inside]
  split_ifs with member
  · rfl
  · apply same i inside
    by_contra differs
    exact member (List.mem_filter.mpr ⟨List.mem_range.mpr inside, decide_eq_true differs⟩)

theorem leaves_moveWords (general : General r) (value pc : U64) :
    Leaves (moveWords r value pc) r value pc := by
  rintro s rfl
  have low := and_not_bits_toNat value (show 12 ≤ 64 by decide)
  have page := and_not_bits_toNat s.pc (show 12 ≤ 64 by decide)
  have whole : ((value &&& ~~~bits 12) - (s.pc &&& ~~~bits 12)).toNat % 4096 = 0 := by
    rw [BitVec.toNat_sub]
    omega
  rw [moveWords]
  split_ifs with near pages split same
  · obtain ⟨back, ahead⟩ := near_iff.mp near
    exact runsOn_adr (by omega) ahead
  · obtain ⟨back, ahead⟩ := (pages_near_iff whole).mp pages
    have first := runsOn_adrp (r := r) (show (value &&& ~~~bits 12).toNat % 4096 = 0 by omega)
      (by omega) ahead
    have second := runsOn_add general value
      (show (s.set (field r) (value &&& ~~~bits 12)).registers (field r) = _ from
        Registers.write_same ..)
    rw [← State.moved_one (State.set ..), State.moved_set] at second
    exact first.trans second
  · obtain ⟨back, ahead⟩ := (pages_near_iff whole).mp pages
    have first := runsOn_adrp (r := r) (show (value &&& ~~~bits 12).toNat % 4096 = 0 by omega)
      (by omega) ahead
    rw [not_not] at split
    rw [split] at first ⊢
    exact first
  · have first := runsOn_adr (r := r) (show -(2 ^ 20 : ℤ) ≤ (s.pc - s.pc).toInt by simp)
      (by simp)
    have rest := first.trans (runsOn_movks general value (missing value s.pc (List.range 4)) _)
    rw [State.moved_set, State.set_registers, Registers.write_same,
      inserted_missing fun i _ => Eq.symm] at rest
    rw [List.length_append, List.length_map, List.length_singleton, Nat.add_comm]
    exact rest
  · have rest := runsOn_movks general value (missing value s.pc (List.range 4)) s
    rw [inserted_missing] at rest
    · rw [List.nil_append, List.length_map]
      exact rest
    · intro i inside match_
      exact absurd ((anyMatch_iff value s.pc).mpr ⟨i, inside, match_⟩) same

theorem length_moveWords (r : IRegType) (value pc : U64) : (moveWords r value pc).length ≤ 4 := by
  rw [moveWords]
  split_ifs with near pages split same
  · simp
  · simp
  · simp
  · obtain ⟨i, inside, match_⟩ := (anyMatch_iff value pc).mp same
    have fewer : (missing value pc (List.range 4)).length < (List.range 4).length := by
      apply List.length_filter_lt_length_iff_exists.mpr
      exact ⟨i, List.mem_range.mpr inside, by simpa using match_⟩
    rw [List.length_range] at fewer
    simp
    omega
  · have fewer := List.length_filter_le (fun i => decide (half value i ≠ half pc i)) (List.range 4)
    simpa [missing] using fewer

theorem emit_adr (general : General r) (out : VecSpan) {pc value : U64}
    (near : abs (pc - value) ≤ adrAdrpMaxDiff) :
    emit out (assemble .Adr { rd := r.setWidth 64, imm := value } pc) =
      out.add (adrWord r value pc) := by
  obtain ⟨back, ahead⟩ := near_iff.mp near
  rw [assemble_adr general (by omega) (by omega)]
  rfl

theorem abs_self_near (pc : U64) : abs (pc - pc) ≤ adrAdrpMaxDiff := by
  rw [BitVec.sub_self]
  decide

/-- The parts that do not match are emitted. -/
theorem foldlM_movk (general : General r) (value pc : U64) {indices : List ℕ}
    (small : ∀ i ∈ indices, i < 4) (out : VecSpan) :
    indices.foldlM (fun out i =>
        if part16 value i = part16 pc i then some out
        else emit out (assembleMovk (r.setWidth 64) (part16 value i) (BitVec.ofNat 64 (i * 16))))
      out = out.addAll ((missing value pc indices).map (movkWord r value)) := by
  induction indices generalizing out with
  | nil => rfl
  | cons i indices ih =>
    have rest := ih fun i member => small i (List.mem_cons_of_mem _ member)
    rw [List.foldlM_cons, missing]
    by_cases match_ : half value i = half pc i
    · rw [if_pos (part16_inj.mpr match_), List.filter_cons_of_neg (by simpa using match_)]
      exact rest out
    · rw [if_neg (mt part16_inj.mp match_), List.filter_cons_of_pos (by simpa using match_),
        List.map_cons, assembleMovk_part general value (small i List.mem_cons_self)]
      change (out.add (movkWord r value i)).bind _ = (out.add (movkWord r value i)).bind _
      congr
      funext next
      exact rest next

theorem addAll_size {out next : VecSpan} {words : List Instr}
    (added : out.addAll words = some next) : next.mSize = out.mSize + words.length := by
  induction words generalizing out with
  | nil =>
    cases added
    rfl
  | cons word words ih =>
    obtain ⟨first, one, rest⟩ := Option.bind_eq_some_iff.mp added
    rw [VecSpan.add] at one
    split at one
    · cases one
      have size := ih rest
      dsimp only at size
      rw [size, List.length_cons]
      omega
    · cases one

/-- The number that is returned is that of the words. -/
theorem map_size_addAll (out : VecSpan) (words : List Instr) :
    (out.addAll words).map (fun next => (next.mSize - out.mSize, next)) =
      (out.addAll words).map (words.length, ·) := by
  cases added : out.addAll words with
  | none => rfl
  | some next => simp [addAll_size added]

/-- The instructions of a page and of the rest of an address. -/
theorem emit_pages (general : General r) (out : VecSpan) {value pc : U64}
    (pages : abs ((pc &&& ~~~bits 12) - (value &&& ~~~bits 12)) / cPageSize ≤ adrAdrpMaxDiff) :
    ((emit out (assemble .Adrp { rd := r.setWidth 64, imm := value &&& ~~~bits 12 } pc)).bind
      fun out =>
        if value &&& ~~~bits 12 ≠ value then
          (emit out (assembleAddImm true (r.setWidth 64) (r.setWidth 64) (value &&& bits 12))).map
            (2, ·)
        else some (1, out)) =
      let words := adrpWord r (value &&& ~~~bits 12) pc ::
        if value &&& ~~~bits 12 ≠ value then [addWord r value] else []
      (out.addAll words).map (words.length, ·) := by
  have low := and_not_bits_toNat value (show 12 ≤ 64 by decide)
  have page := and_not_bits_toNat pc (show 12 ≤ 64 by decide)
  have whole : ((value &&& ~~~bits 12) - (pc &&& ~~~bits 12)).toNat % 4096 = 0 := by
    rw [BitVec.toNat_sub]
    omega
  obtain ⟨back, ahead⟩ := (pages_near_iff whole).mp pages
  rw [assemble_adrp general (by omega) (by omega) (by omega), assembleAddImm_lower general]
  change (out.add (adrpWord r (value &&& ~~~bits 12) pc)).bind _ = _
  cases added : out.add (adrpWord r (value &&& ~~~bits 12) pc) with
  | none =>
    dsimp only
    rw [VecSpan.addAll_cons, added]
    rfl
  | some next =>
    dsimp only
    rw [VecSpan.addAll_cons, added]
    split_ifs
    · rw [Option.bind_some, Option.bind_some, VecSpan.addAll_one]
      rfl
    · rfl

/-- A move emits its words. -/
theorem emitMovImmediate64_eq (general : General r) (mRx : Ptr) (mOut : VecSpan) (value : U64) :
    emitMovImmediate64 false mRx mOut r value =
      (mOut.addAll (moveWords r value (calcCurRxAddr mRx mOut))).map
        ((moveWords r value (calcCurRxAddr mRx mOut)).length, ·) := by
  rw [emitMovImmediate64, moveWords]
  dsimp only
  generalize calcCurRxAddr mRx mOut = pc
  have matches_ : ((List.range 4).any fun i => part16 value i == part16 pc i) =
      anyMatch value pc := by
    rw [Bool.eq_iff_iff, anyMatch_iff]
    simp only [List.any_eq_true, List.mem_range, beq_iff_eq, part16_inj]
  have parts (out : VecSpan) : emitMovk out (r.setWidth 64) value pc =
      out.addAll ((missing value pc (List.range 4)).map (movkWord r value)) :=
    foldlM_movk general value pc (fun i => List.mem_range.mp) out
  rw [matches_, if_neg Bool.false_ne_true]
  simp only [parts]
  by_cases near : abs (pc - value) ≤ adrAdrpMaxDiff
  · rw [if_pos near, if_pos near, emit_adr general mOut near, VecSpan.addAll_one]
    rfl
  rw [if_neg near, if_neg near]
  by_cases pages : abs ((pc &&& ~~~bits 12) - (value &&& ~~~bits 12)) / cPageSize ≤ adrAdrpMaxDiff
  · rw [if_pos pages, if_pos pages]
    exact emit_pages general mOut pages
  rw [if_neg pages, if_neg pages, ← map_size_addAll, VecSpan.addAll_append]
  cases anyMatch value pc
  · rfl
  · rw [if_pos rfl, if_pos rfl, emit_adr general mOut (abs_self_near pc), VecSpan.addAll_one]

/-! ## Branches -/

def linkOperand (link : Bool) : UnconditionalBranchOp := if link then .BranchLink else .Branch

/-- The words of a branch. -/
def branchWords (target pc : Ptr) (link : Bool) : List Instr :=
  if abs (target - pc) ≤ cMaxBranchDistance then
    [makeUnconditionalBranch (linkOperand link) pc target]
  else moveWords IP0 target pc ++ [if link then cBlr else cBr]

/-- Words that lead to a target and write no register but `IP0` and, when they link, the link
register. -/
def Transfers (words : List Instr) (pc target : Ptr) (link : Bool) : Prop :=
  ∀ s : State, s.pc = pc → ∃ scratch, Runs words s
    { s with
      registers :=
        let registers := s.registers.write (field IP0) scratch
        if link then registers.write 30 (pc + BitVec.ofNat 64 (cInstrSize * words.length))
        else registers
      pc := target }

theorem length_branchWords (target pc : Ptr) (link : Bool) :
    (branchWords target pc link).length ≤ 5 := by
  have few := length_moveWords IP0 target pc
  rw [branchWords]
  split
  · simp
  · rw [List.length_append, List.length_singleton]
    omega

theorem general_IP0 : General IP0 := by decide

theorem emitBranch_eq (mRx : Ptr) (mOut : VecSpan) (target : Ptr) (link : Bool) :
    emitBranch false mRx mOut target link =
      (mOut.addAll (branchWords target (calcCurRxAddr mRx mOut) link)).map
        ((branchWords target (calcCurRxAddr mRx mOut) link).length, ·) := by
  rw [emitBranch, branchWords, emitMovImmediate64_eq general_IP0]
  dsimp only
  generalize calcCurRxAddr mRx mOut = pc
  split
  · rw [VecSpan.addAll_one]
    rfl
  · rw [VecSpan.addAll_append]
    cases mOut.addAll (moveWords IP0 target pc) with
    | none => rfl
    | some next =>
      simp only [Option.map_some, Option.bind_some, List.length_append, List.length_singleton,
        VecSpan.addAll_one]

/-- The distance of a branch in words. -/
theorem wordOffset_eq {distance : U64} (aligned : distance.toNat % 4 = 0)
    (back : -(2 ^ 27 : ℤ) ≤ distance.toInt) (ahead : distance.toInt < 2 ^ 27) :
    wordOffset (BitVec.ofNat 26 (distance.toNat / 4)) = distance := by
  have signed := distance.toInt_eq_toNat_cond
  have bound := distance.isLt
  rw [wordOffset, ← BitVec.toNat_inj, BitVec.toNat_shiftLeft, Nat.shiftLeft_eq,
    BitVec.toNat_signExtend, BitVec.msb_eq_decide, BitVec.toNat_setWidth, BitVec.toNat_ofNat]
  simp only [decide_eq_true_eq]
  split at signed <;> split_ifs <;> omega

/-- A branch that is near. -/
theorem runs_branch {s : State} {target : Ptr} (aligned : (target - s.pc).toNat % 4 = 0)
    (near : abs (target - s.pc) ≤ cMaxBranchDistance) (link : Bool) :
    Runs [makeUnconditionalBranch (linkOperand link) s.pc target] s
      (if link then s.call target else s.jump target) := by
  rw [abs_sub_comm, abs_sub_le_iff, show cMaxBranchDistance.toNat = 2 ^ 27 - 1 from rfl] at near
  have offset := wordOffset_eq aligned (by omega) (by omega)
  have arrives : s.pc + (target - s.pc) = target := by
    rw [BitVec.add_comm, BitVec.sub_add_cancel]
  apply Runs.one
  rw [makeUnconditionalBranch_eq _ aligned]
  cases link
  · exact (congrArg (execute s) (A64.Instr.decode_encode (.b _) trivial)).trans
      (by rw [execute, offset, arrives]; rfl)
  · exact (congrArg (execute s) (A64.Instr.decode_encode (.bl _) trivial)).trans
      (by rw [execute, offset, arrives]; rfl)

/-- The branch to the scratch register. -/
theorem runs_br (s : State) (link : Bool) :
    Runs [if link then cBlr else cBr] s
      (if link then s.call (s.registers (field IP0)) else s.jump (s.registers (field IP0))) := by
  apply Runs.one
  have general : s.registers.read 16 = s.registers (field IP0) := rfl
  cases link
  · rw [if_neg Bool.false_ne_true, cBr_eq, A64.Instr.decode_encode (.br _) trivial, execute,
      general]
    rfl
  · rw [if_pos rfl, cBlr_eq, A64.Instr.decode_encode (.blr _) trivial, execute, general]
    rfl

theorem transfers_branchWords {pc target : Ptr} (aligned : (target - pc).toNat % 4 = 0)
    (link : Bool) : Transfers (branchWords target pc link) pc target link := by
  rintro s rfl
  rw [branchWords]
  split
  · rename_i near
    have run := runs_branch aligned near link
    refine ⟨s.registers (field IP0), ?_⟩
    dsimp only
    rw [Registers.write_self]
    cases link <;> exact run
  · have move := leaves_moveWords general_IP0 target s.pc s rfl
    have run := move.append (runs_br _ link)
    have value : (s.moved (field IP0) target (moveWords IP0 target s.pc).length).registers
        (field IP0) = target := Registers.write_same s.registers (field IP0) target
    rw [value] at run
    have after : (s.moved (field IP0) target (moveWords IP0 target s.pc).length).pc + 4 =
        s.pc + BitVec.ofNat 64
          (cInstrSize * (moveWords IP0 target s.pc ++ [if link then cBlr else cBr]).length) := by
      rw [List.length_append, List.length_singleton, Nat.mul_succ, BitVec.ofNat_add,
        ← BitVec.add_assoc]
      rfl
    refine ⟨target, ?_⟩
    rw [← after]
    cases link <;> exact run

/-! ## The emitter and the hooks -/

/-- A buffer within its array. -/
def VecSpan.Whole (out : VecSpan) : Prop := out.mCapacity ≤ out.mData.length

/-- With four words free, a move emits at most four that leave the value in the register. -/
def MovesWithFour (mRx : Ptr) (mOut : VecSpan) : Prop :=
  ∀ reg value, General reg → mOut.mSize + 4 ≤ mOut.mCapacity →
    ∃ words : List Instr, words.length ≤ 4 ∧
      emitMovImmediate64 false mRx mOut reg value = some (words.length, mOut.append words) ∧
      Leaves words reg value (calcCurRxAddr mRx mOut)

/-- With five words free, a branch emits at most five that lead to the target. -/
def BranchesWithFive (mRx : Ptr) (mOut : VecSpan) : Prop :=
  ∀ (target : Ptr) link, target.toNat % 4 = 0 → mOut.mSize + 5 ≤ mOut.mCapacity →
    ∃ words : List Instr, words.length ≤ 5 ∧
      emitBranch false mRx mOut target link = some (words.length, mOut.append words) ∧
      Transfers words (calcCurRxAddr mRx mOut) target link

/-- A hook of five words leads from its address to the handler; an install of it within the sections
of a module succeeds and leaves the words there. -/
def Redirects (hookAt : Ptr) : Prop :=
  ∀ target : Ptr, target.toNat % 4 = 0 →
    ∃ instrs, hookInstrs 5 hookAt target = some instrs ∧ instrs.length ≤ 5 ∧
      Transfers instrs hookAt target false ∧
      ∀ (hook : HookNInstr) memory (module : Ro.RoModule) offset,
        hook.isInstalled = false → module.mTextRange.mStart + offset = hookAt → module.Mapped →
          Within module offset (instrs.length * cInstrSize) →
            ∃ next after, Replace.installAtOffset 5 target hook memory module offset =
                some (.ok (), next, after) ∧
              readInstrs module after offset instrs.length = instrs

theorem redirects {hookAt : Ptr} (aligned : hookAt.toNat % 4 = 0) : Redirects hookAt := by
  intro target whole
  have distance : (target - hookAt).toNat % 4 = 0 := by
    rw [BitVec.toNat_sub]
    omega
  have start : calcCurRxAddr hookAt { mData := List.replicate 5 0, mCapacity := 5 } = hookAt :=
    BitVec.add_zero _
  have few := length_branchWords target hookAt false
  have emitted : hookInstrs 5 hookAt target = some (branchWords target hookAt false) := by
    rw [hookInstrs, emitBranch_eq, start, VecSpan.addAll_eq]
    · simp [VecSpan.append]
    · change 0 + (branchWords target hookAt false).length ≤ 5
      omega
    · exact le_rfl
  refine ⟨_, emitted, few, transfers_branchWords distance false, ?_⟩
  intro hook memory module offset absent place mapped within
  obtain ⟨after, wrote, there⟩ := writeInstrs_of_within memory mapped within
  refine ⟨⟨some module, offset, readInstrs module memory offset 5⟩, after, ?_, there⟩
  rw [Replace.installAtOffset, absent, if_neg Bool.false_ne_true, place, emitted, Option.map_some,
    HookNInstr.installAtOffset, absent, if_neg Bool.false_ne_true]
  simp only [wrote]

end Hakkun.Hook
