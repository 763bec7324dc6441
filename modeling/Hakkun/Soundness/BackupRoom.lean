import Hakkun.Soundness.TrampolineBackup

/-! # Room for a backup

A word takes four words of a buffer at most, literals counted, and a branch with a condition five.
With that much room for the words and for the return behind them, a backup is made of whatever is
not refused, and with one word more its code and its literals do not meet.
-/

namespace Hakkun.Hook

open A64

/-- The words that code and literals take. -/
def VecSpan.filled (out : VecSpan) : ℕ := out.mSize + (out.mData.length - out.mCapacity)

theorem spare_of_filled {out : VecSpan} (fits : out.Fits) (free : out.filled < out.mData.length) :
    out.Spare := by
  intro literals
  have whole := fits.whole
  rw [VecSpan.filled] at free
  omega

section

variable {mRx : Ptr} {out next : VecSpan}

theorem room_of_filled {k : ℕ} (fits : out.Fits) (room : out.filled + k ≤ out.mData.length) :
    out.mSize + k ≤ out.mCapacity := by
  have whole := fits.whole
  rw [VecSpan.filled] at room
  omega

theorem filled_append {words : List Instr} (fits : out.Fits)
    (room : out.mSize + words.length ≤ out.mCapacity) :
    (out.append words).filled = out.filled + words.length := by
  have whole := fits.whole
  have length := length_append (show out.mSize + words.length ≤ out.mData.length by omega)
  rw [VecSpan.filled, VecSpan.filled, length]
  change out.mSize + words.length + (out.mData.length - out.mCapacity) = _
  omega

/-- Words are added where there is room for them. -/
theorem addAll_of_filled {words : List Instr} (fits : out.Fits)
    (room : out.filled + words.length ≤ out.mData.length) :
    out.addAll words = some (out.append words) ∧
      (out.append words).filled = out.filled + words.length := by
  have fitting := room_of_filled fits room
  exact ⟨VecSpan.addAll_eq fitting fits.whole, filled_append fits fitting⟩

theorem filled_reserve (fits : out.Fits) (word : Instr) (value : U64)
    (room : out.mSize + 3 ≤ out.mCapacity) :
    (out.reserve word value).filled = out.filled + 3 := by
  have whole := fits.whole
  have length : (out.reserve word value).mData.length = out.mData.length := by
    rw [VecSpan.reserve, List.length_set, List.length_set, List.length_set]
  rw [VecSpan.filled, VecSpan.filled, length]
  change out.mSize + 1 + (out.mData.length - (out.mCapacity - 2)) = _
  omega

theorem length_moveWords_of_plain {reg : IRegType} {value pc : U64}
    (plain : ¬ needsLiteral value pc) : (moveWords reg value pc).length ≤ 2 := by
  rw [moveWords]
  split
  · exact Nat.le_succ 1
  · split
    · split
      · exact le_rfl
      · exact Nat.le_succ 1
    · exact absurd ⟨‹_›, ‹_›⟩ plain

/-- Registers that an assembler takes. -/
theorem registers_of_small {rd : U64} (small : rd.toNat < 32) :
    rd < IRegType.max.setWidth 64 ∧ (0 : U64) < IRegType.max.setWidth 64 ∧
      (0 : U64) < IRegType.max.setWidth 64 := by
  refine ⟨?_, by decide, by decide⟩
  rw [BitVec.lt_def, show (IRegType.max.setWidth 64 : U64).toNat = 223 from rfl]
  omega

/-- A load of a literal that is ahead is assembled. -/
theorem assembled_literal {reg : IRegType} {pc : Ptr} {k : ℕ} (general : General reg)
    (aligned : pc.toNat % 4 = 0) (near : k < 2 ^ 18) :
    ∃ instr, assemble .LdrLiteral
      { rd := reg.setWidth 64, imm := pc + BitVec.ofNat 64 (4 * k) } pc = some instr := by
  have distance := @ahead_toNat pc k near
  have small : (reg.setWidth 64 : U64).toNat < 32 := by
    rw [General] at general
    rw [BitVec.toNat_setWidth]
    omega
  obtain ⟨instr, assembled, -⟩ := (@encodes_assembleLdrLiteral pc (pc + BitVec.ofNat 64 (4 * k))
    (encodedRegister (reg.setWidth 64)) aligned).near (by omega)
  exact ⟨instr, (assemble_of_registers (registers_of_small small)).trans assembled⟩

/-- So are the branches with a condition. -/
theorem assembled_bcond {cond : BitVec 4} {pc : Ptr} {k : ℕ} (aligned : pc.toNat % 4 = 0)
    (near : k < 2 ^ 18) :
    ∃ instr, assemble .Bcond
      { rd := 0, imm := pc + BitVec.ofNat 64 (4 * k), shiftImm := cond.setWidth 64 } pc =
        some instr := by
  have distance := @ahead_toNat pc k near
  have small : (cond.setWidth 64 : U64).toNat < 16 := by
    rw [BitVec.toNat_setWidth]
    omega
  obtain ⟨instr, assembled, -⟩ := (@encodes_assembleBcond pc (pc + BitVec.ofNat 64 (4 * k)) _ small
    aligned).near (by omega)
  have none : (0 : U64).toNat < 32 := by decide
  exact ⟨instr, (assemble_of_registers (registers_of_small none)).trans assembled⟩

theorem register_toNat (rt : RegField) : (rt.setWidth 64 : U64).toNat < 32 := by
  rw [BitVec.toNat_setWidth]
  omega

theorem assembled_compare {isCbz : Bool} {rt : RegField} {pc : Ptr} {k : ℕ}
    (aligned : pc.toNat % 4 = 0) (near : k < 2 ^ 18) :
    ∃ instr, assemble (if isCbz then .Cbz else .Cbnz)
      { rd := rt.setWidth 64, imm := pc + BitVec.ofNat 64 (4 * k) } pc = some instr := by
  have distance := @ahead_toNat pc k near
  obtain ⟨instr, assembled, -⟩ := (@encodes_assembleCbz pc (pc + BitVec.ofNat 64 (4 * k))
    (encodedRegister (rt.setWidth 64)) isCbz aligned).near (by omega)
  refine ⟨instr, Eq.trans ?_ assembled⟩
  cases isCbz <;> exact assemble_of_registers (registers_of_small (register_toNat rt))

theorem assembled_bit {isTbz : Bool} {bit : BitVec 6} {rt : RegField} {pc : Ptr} {k : ℕ}
    (aligned : pc.toNat % 4 = 0) (near : k < 2 ^ 13) :
    ∃ instr, assemble (if isTbz then .Tbz else .Tbnz)
      { rd := rt.setWidth 64, imm := pc + BitVec.ofNat 64 (4 * k), shiftImm := bit.setWidth 64 } pc =
        some instr := by
  have distance := @ahead_toNat pc k (Nat.lt_trans near (by decide))
  have small : (bit.setWidth 64 : U64).toNat % 2 ^ 32 < 64 := by
    rw [BitVec.toNat_setWidth]
    omega
  obtain ⟨instr, assembled, -⟩ := (@encodes_assembleTbz pc (pc + BitVec.ofNat 64 (4 * k))
    (encodedRegister (rt.setWidth 64)) isTbz _ small aligned).near (by omega)
  refine ⟨instr, Eq.trans ?_ assembled⟩
  cases isTbz <;> exact assemble_of_registers (registers_of_small (register_toNat rt))

/-- A move takes three words. -/
theorem move_of_room {reg : IRegType} (value : U64) (fits : out.Fits)
    (aligned : mRx.toNat % 4 = 0) (general : General reg) (near : out.mData.length ≤ 2 ^ 18)
    (room : out.filled + 3 ≤ out.mData.length) :
    ∃ result, emitMovImmediate64 true mRx out reg value = some result ∧
      result.2.filled ≤ out.filled + 3 := by
  by_cases needs : needsLiteral value (calcCurRxAddr mRx out)
  · have fitting := room_of_filled fits room
    have whole := fits.whole
    have literal : mRx + BitVec.ofNat 64 ((out.mCapacity - 2 - 1) * cInstrSize) =
        calcCurRxAddr mRx out + BitVec.ofNat 64 (4 * (out.mCapacity - 2 - 1 - out.mSize)) := by
      rw [calcCurRxAddr, BitVec.add_assoc, ← BitVec.ofNat_add, cInstrSize]
      congr 2
      omega
    have reach : out.mCapacity - 2 - 1 - out.mSize < 2 ^ 18 := by omega
    obtain ⟨instr, assembled⟩ := assembled_literal general (calcCurRxAddr_aligned aligned out) reach
    have moved : ∃ result, emitMovImmediate64 true mRx out reg value = some result := by
      rw [emitMovImmediate64]
      dsimp only
      rw [if_neg needs.1, if_neg needs.2, if_pos rfl, if_pos (by omega), literal, assembled, emit,
        Option.bind_some, VecSpan.add, if_pos (by omega)]
      exact ⟨_, rfl⟩
    obtain ⟨result, moved⟩ := moved
    refine ⟨result, moved, ?_⟩
    rw [(move_literal aligned general.isX reach needs moved).1, filled_reserve fits _ _ fitting]
  · have few := @length_moveWords_of_plain reg _ _ needs
    obtain ⟨added, filled⟩ := @addAll_of_filled out
      (moveWords reg value (calcCurRxAddr mRx out)) fits (by omega)
    rw [emitMovImmediate64_of_plain needs, emitMovImmediate64_eq general, added]
    refine ⟨_, rfl, ?_⟩
    rw [filled]
    omega

/-- A branch takes four words. -/
theorem branch_of_room (target : Ptr) (link : Bool) (fits : out.Fits)
    (aligned : mRx.toNat % 4 = 0) (near : out.mData.length ≤ 2 ^ 18)
    (room : out.filled + 4 ≤ out.mData.length) :
    ∃ result, emitBranch true mRx out target link = some result ∧
      result.2.filled ≤ out.filled + 4 := by
  rw [emitBranch]
  dsimp only
  split
  · rw [← VecSpan.addAll_one]
    obtain ⟨added, filled⟩ := @addAll_of_filled out
      [makeUnconditionalBranch (if link then .BranchLink else .Branch) (calcCurRxAddr mRx out)
        target] fits (by rw [List.length_singleton]; omega)
    rw [added]
    refine ⟨_, rfl, ?_⟩
    rw [filled, List.length_singleton]
    omega
  · obtain ⟨⟨movSize, middle⟩, moved, few⟩ := move_of_room target fits aligned general_IP0 near
      (by omega)
    have grows := (emits_move fits aligned general_IP0 near moved).1
    have length := grows.length
    dsimp only at few grows length
    obtain ⟨added, filled⟩ := @addAll_of_filled middle [if link then cBlr else cBr] grows.fits
      (by rw [List.length_singleton]; omega)
    rw [moved, Option.bind_some]
    dsimp only
    rw [← VecSpan.addAll_one, added]
    refine ⟨_, rfl, ?_⟩
    rw [filled, List.length_singleton]
    omega

/-- A branch with a condition takes five words, when the inverted one is assembled. -/
theorem conditional_of_room {type : IInstrType} {rd shiftImm addr : U64} (fits : out.Fits)
    (aligned : mRx.toNat % 4 = 0) (whole : addr.toNat % 4 = 0) (near : out.mData.length ≤ 2 ^ 18)
    (room : out.filled + 5 ≤ out.mData.length)
    (assembles : ∀ k < 2 ^ 13, ∃ instr, assemble type
      { rd := rd, imm := calcCurRxAddr mRx out + BitVec.ofNat 64 (4 * k), shiftImm := shiftImm }
      (calcCurRxAddr mRx out) = some instr) :
    ∃ next, relocateConditional mRx out type rd shiftImm addr = some next ∧
      next.filled ≤ out.filled + 5 := by
  obtain ⟨added, filled⟩ := @addAll_of_filled out [0] fits (by rw [List.length_singleton]; omega)
  have start := (Grows.addAll fits added).2
  have length := start.length
  have size : (out.append [0]).mSize = out.mSize + 1 := rfl
  rw [List.length_singleton] at filled
  obtain ⟨⟨count, last⟩, emitted, few⟩ := branch_of_room addr false start.fits aligned
    (length.symm ▸ near) (by omega)
  obtain ⟨grows, behind, short, -⟩ := emits_branch start.fits aligned whole (length.symm ▸ near)
    emitted
  dsimp only at few grows behind short
  have ahead : calcCurRxAddr mRx last =
      calcCurRxAddr mRx out + BitVec.ofNat 64 (4 * (last.mSize - out.mSize)) := by
    rw [calcCurRxAddr, calcCurRxAddr, cInstrSize, BitVec.add_assoc, ← BitVec.ofNat_add,
      ← Nat.mul_add, Nat.add_sub_cancel' (by omega)]
  obtain ⟨instr, assembled⟩ := assembles (last.mSize - out.mSize) (by omega)
  rw [relocateConditional, ← VecSpan.addAll_one, added, Option.bind_some, emitted, Option.bind_some]
  dsimp only
  rw [calcRxAddr_mSize, ahead, assembled]
  refine ⟨_, rfl, ?_⟩
  have same : ({ last with mData := last.mData.set out.mSize instr } : VecSpan).filled =
      last.filled := by
    rw [VecSpan.filled, VecSpan.filled, List.length_set]
  rw [same]
  omega

/-- The instructions that a relocation refuses: all that it does not know how to return from, but as
the last one, and loads of literals. -/
def refuses : A64.Instr → Bool → Bool
  | .b _, isLast | .bcond .., isLast | .compareBranch .., isLast | .testBranch .., isLast => !isLast
  | .literal .., _ => true
  | _, _ => false

/-- The words that an instruction takes. -/
def wordsOf (i : A64.Instr) : ℕ := if conditional i then 5 else 4

/-- There is code for a word, when there is room for it, exactly if it is not refused. -/
theorem relocate_of_room {word : Instr} {pc : Ptr} {before isLast : Bool} (fits : out.Fits)
    (aligned : mRx.toNat % 4 = 0) (near : out.mData.length ≤ 2 ^ 18) (whole : pc.toNat % 4 = 0)
    (known : relocatable (A64.Instr.decode word) = true)
    (room : out.filled + wordsOf (A64.Instr.decode word) ≤ out.mData.length) :
    if refuses (A64.Instr.decode word) isLast then relocate mRx out before word pc isLast = none
    else ∃ next after, relocate mRx out before word pc isLast = some (next, after) ∧
      next.filled ≤ out.filled + wordsOf (A64.Instr.decode word) := by
  have start := calcCurRxAddr_aligned aligned out
  cases decoded : A64.Instr.decode word with
  | adr rd imm =>
    rw [decoded, relocatable, bne_iff_ne] at known
    rw [decoded] at room
    change out.filled + 4 ≤ _ at room
    obtain ⟨register, -⟩ := general_of_field rd known
    obtain ⟨result, moved, few⟩ := move_of_room (pc + imm.signExtend 64) fits aligned register near
      (by omega)
    refine ⟨result.2, before, ?_, Nat.le_succ_of_le few⟩
    rw [relocate_address (.inl ⟨decoded, rfl⟩), moved]
    rfl
  | adrp rd imm =>
    rw [decoded, relocatable, bne_iff_ne] at known
    rw [decoded] at room
    change out.filled + 4 ≤ _ at room
    obtain ⟨register, -⟩ := general_of_field rd known
    obtain ⟨result, moved, few⟩ := move_of_room (adrpAddress pc imm) fits aligned register near
      (by omega)
    refine ⟨result.2, before, ?_, Nat.le_succ_of_le few⟩
    rw [relocate_address (.inr ⟨decoded, rfl⟩), moved]
    rfl
  | b imm =>
    rw [decoded] at room
    rw [relocate_b decoded]
    cases isLast with
    | false => rfl
    | true =>
      obtain ⟨result, emitted, few⟩ := branch_of_room (pc + wordOffset imm) false fits aligned near
        room
      refine ⟨result.2, true, ?_, few⟩
      rw [emitted]
      rfl
  | bl imm =>
    rw [decoded] at room
    obtain ⟨result, emitted, few⟩ := branch_of_room (pc + wordOffset imm) true fits aligned near room
    refine ⟨result.2, before, ?_, few⟩
    rw [relocate_bl decoded, emitted]
    rfl
  | bcond cond imm =>
    rw [decoded] at room
    rw [relocate_bcond decoded]
    cases isLast with
    | false => rfl
    | true =>
      obtain ⟨next, emitted, few⟩ := conditional_of_room fits aligned (target_aligned whole imm) near
        room fun k small => assembled_bcond start (Nat.lt_trans small (by decide))
      refine ⟨next, before, ?_, few⟩
      rw [if_pos rfl, emitted]
      rfl
  | compareBranch sf nonzero imm rt =>
    rw [decoded] at room
    rw [relocate_compare decoded]
    cases isLast with
    | false => rfl
    | true =>
      obtain ⟨next, emitted, few⟩ := conditional_of_room fits aligned (target_aligned whole imm) near
        room fun k small => assembled_compare start (Nat.lt_trans small (by decide))
      refine ⟨next, before, ?_, few⟩
      rw [if_pos rfl, emitted]
      rfl
  | testBranch nonzero bit imm rt =>
    rw [decoded] at room
    rw [relocate_bit decoded]
    cases isLast with
    | false => rfl
    | true =>
      obtain ⟨next, emitted, few⟩ := conditional_of_room fits aligned (target_aligned whole imm) near
        room fun k small => assembled_bit start small
      refine ⟨next, before, ?_, few⟩
      rw [if_pos rfl, emitted]
      rfl
  | literal opc vector imm rt =>
    rw [decoded, relocatable, Bool.and_eq_true, decide_eq_true_eq, Bool.not_eq_true'] at known
    obtain ⟨small, rfl⟩ := known
    exact relocate_literal small decoded
  | _ =>
    have moves : movable (A64.Instr.decode word) = true := by rw [decoded]; rfl
    rw [decoded] at room
    change out.filled + 4 ≤ _ at room
    obtain ⟨added, filled⟩ := @addAll_of_filled out [word] fits
      (by rw [List.length_singleton]; omega)
    rw [List.length_singleton] at filled
    rw [VecSpan.addAll_one] at added
    refine ⟨out.append [word], before, ?_, ?_⟩
    · rw [relocate_movable moves, added]
      rfl
    · rw [filled]
      exact Nat.add_le_add_left (show 1 ≤ 4 by decide) _

end

/-! ## All the words -/

/-- No word is refused. -/
def accepts : List Instr → Bool
  | [] => true
  | word :: words => !refuses (A64.Instr.decode word) words.isEmpty && accepts words

/-- The room for words, of which only the last has a condition, and for the return. -/
def roomFor (words : List Instr) : ℕ := 4 * words.length + min words.length 1 + 4

theorem wordsOf_le (i : A64.Instr) : wordsOf i ≤ 5 := by
  rw [wordsOf]
  split <;> decide

/-- A word that is not the last and not refused has no condition. -/
theorem wordsOf_of_more {i : A64.Instr} (kept : refuses i false = false) : wordsOf i = 4 := by
  cases i with
  | bcond | compareBranch | testBranch => cases kept
  | _ => rfl

section

variable {mRx origAddr returnTo : Ptr} {total : ℕ}

/-- There is code for words and the return, when there is room for it, exactly if no word is
refused. -/
theorem relocated_of_room (aligned : mRx.toNat % 4 = 0) (whole : origAddr.toNat % 4 = 0)
    {words : List Instr} {i : ℕ} {out : VecSpan} (fits : out.Fits)
    (near : out.mData.length ≤ 2 ^ 18) (rest : total = i + words.length)
    (known : ∀ word ∈ words, relocatable (A64.Instr.decode word) = true)
    (room : out.filled + roomFor words ≤ out.mData.length) :
    let made := ((words.zipIdx i).foldlM (relocateStep mRx origAddr total) (out, false)).bind
      (emitReturn mRx returnTo)
    if accepts words then ∃ final, made = some final ∧ final.filled ≤ out.filled + roomFor words
    else made = none := by
  induction words generalizing i out with
  | nil =>
    obtain ⟨result, emitted, few⟩ := branch_of_room returnTo false fits aligned near room
    refine ⟨result.2, ?_, few⟩
    change (emitBranch true mRx out returnTo false).map Prod.snd = _
    rw [emitted]
    rfl
  | cons word words ih =>
    have here : origAddr + BitVec.ofNat 64 (i * cInstrSize) =
        origAddr + BitVec.ofNat 64 (4 * i) := by rw [Nat.mul_comm, cInstrSize]
    have place : (origAddr + BitVec.ofNat 64 (4 * i)).toNat % 4 = 0 := by
      rw [BitVec.toNat_add, BitVec.toNat_ofNat]
      omega
    have isLast : (i == total - 1) = words.isEmpty := by
      rw [rest, List.length_cons, Bool.eq_iff_iff, beq_iff_eq, List.isEmpty_iff_length_eq_zero]
      omega
    have fact := known word List.mem_cons_self
    have five := wordsOf_le (A64.Instr.decode word)
    have needed : roomFor (word :: words) = 4 * words.length + 9 := by
      rw [roomFor, List.length_cons]
      omega
    have one := @relocate_of_room mRx out word (origAddr + BitVec.ofNat 64 (4 * i)) false
      words.isEmpty fits aligned near place fact (by omega)
    have stepped : ((word :: words).zipIdx i).foldlM (relocateStep mRx origAddr total)
        (out, false) = (relocate mRx out false word (origAddr + BitVec.ofNat 64 (4 * i))
          words.isEmpty).bind ((words.zipIdx (i + 1)).foldlM (relocateStep mRx origAddr total)) := by
      rw [List.zipIdx_cons, List.foldlM_cons, relocateStep, here, isLast]
      rfl
    dsimp only
    rw [stepped, accepts, needed]
    cases refused : refuses (A64.Instr.decode word) words.isEmpty with
    | true =>
      rw [refused, if_pos rfl] at one
      rw [one]
      rfl
    | false =>
      rw [refused, if_neg Bool.false_ne_true] at one
      obtain ⟨next, after, relocated, few⟩ := one
      have carried : Grows out next ∧ (next.Spare → CarriesAll (default : Effect Unit mRx 0) word
          (origAddr + BitVec.ofNat 64 (4 * i)) out next) ∧ Skips word words.isEmpty false after :=
        carries_relocate fits aligned near place fact relocated
      obtain ⟨grows, -, skips⟩ := carried
      rw [relocated, Option.bind_some, Bool.not_false, Bool.true_and]
      rcases skips with ⟨rfl, -⟩ | ⟨last, rfl, imm, decoded⟩
      · have fewer : wordsOf (A64.Instr.decode word) + roomFor words ≤ 4 * words.length + 9 := by
          cases words with
          | nil => exact Nat.add_le_add_right five 4
          | cons other words =>
            rw [wordsOf_of_more refused, roomFor, List.length_cons]
            omega
        have length := grows.length
        have tail := ih grows.fits (length.symm ▸ near)
          (show total = i + 1 + words.length by rw [rest, List.length_cons]; omega)
          (fun word member => known word (List.mem_cons_of_mem _ member)) (by omega)
        cases accepted : accepts words with
        | true =>
          rw [accepted, if_pos rfl] at tail
          obtain ⟨final, made, short⟩ := tail
          exact ⟨final, made, by omega⟩
        | false =>
          rw [accepted, if_neg Bool.false_ne_true] at tail
          exact tail
      · obtain rfl := List.isEmpty_iff.mp last
        exact ⟨next, rfl, Nat.le_trans few (by omega)⟩

end

section

variable {trampolineRx origAddr origReturnAddr : Ptr} {data orig : List Instr}

/-- With room for the words, a backup is made exactly if none is refused. -/
theorem made_of_room (aligned : trampolineRx.toNat % 4 = 0) (whole : origAddr.toNat % 4 = 0)
    (near : data.length ≤ 2 ^ 18)
    (distance : (origAddr - origReturnAddr) % BitVec.ofNat 64 cInstrSize = 0)
    (known : ∀ word ∈ orig, relocatable (A64.Instr.decode word) = true)
    (room : roomFor orig ≤ data.length) :
    let made := makeTrampolineBackup trampolineRx ⟨data, 0, data.length⟩ orig origAddr
      origReturnAddr
    if accepts orig then ∃ out, made = some out ∧ out.filled ≤ roomFor orig else made = none := by
  have filled : VecSpan.filled ⟨data, 0, data.length⟩ = 0 := by
    rw [VecSpan.filled, Nat.sub_self]
  have fits : VecSpan.Fits ⟨data, 0, data.length⟩ := ⟨Nat.zero_le _, le_rfl⟩
  have relocated := @relocated_of_room trampolineRx origAddr origReturnAddr orig.length aligned
    whole orig 0 ⟨data, 0, data.length⟩ fits near (Nat.zero_add _).symm known
    (by rw [filled, Nat.zero_add]; exact room)
  have made : makeTrampolineBackup trampolineRx ⟨data, 0, data.length⟩ orig origAddr
      origReturnAddr = ((orig.zipIdx 0).foldlM (relocateStep trampolineRx origAddr orig.length)
        (⟨data, 0, data.length⟩, false)).bind (emitReturn trampolineRx origReturnAddr) :=
    if_pos distance
  dsimp only at relocated ⊢
  rwa [filled, Nat.zero_add, ← made] at relocated

/-- With room for one word more, a backup that is made does what the words do. -/
theorem follows_of_room {ρ : Type} {count : ℕ} (effect : Effect ρ trampolineRx count)
    (short : data.length ≤ count) (aligned : trampolineRx.toNat % 4 = 0)
    (whole : origAddr.toNat % 4 = 0) (near : data.length ≤ 2 ^ 18)
    (known : ∀ word ∈ orig, relocatable (A64.Instr.decode word) = true)
    (room : roomFor orig < data.length) {out : VecSpan}
    (made : makeTrampolineBackup trampolineRx ⟨data, 0, data.length⟩ orig origAddr
      origReturnAddr = some out) :
    ∃ start, start 0 = trampolineRx ∧
      Follows effect orig origAddr origReturnAddr out.mData start := by
  obtain ⟨grows, follows⟩ := follows_of_made effect short aligned whole near known made
  have distance := distance_of_made made
  have relocated := made_of_room aligned whole near distance known (Nat.le_of_lt room)
  dsimp only at relocated
  rw [made] at relocated
  apply follows
  apply spare_of_filled grows.fits
  have length := grows.length
  dsimp only at length
  split at relocated
  · obtain ⟨final, same, few⟩ := relocated
    obtain rfl := Option.some.inj same
    omega
  · cases relocated

end

/-- With room for the words, and for one more, a backup of words whose meaning a relocation keeps is
made exactly if none is refused, and then it does what the words do. -/
theorem backup_follows {ρ : Type} {trampolineRx origAddr origReturnAddr : Ptr} {data : List Instr}
    (effect : Effect ρ trampolineRx data.length) (aligned : trampolineRx.toNat % 4 = 0)
    (whole : origAddr.toNat % 4 = 0) (near : data.length ≤ 2 ^ 18)
    (distance : (origAddr - origReturnAddr) % BitVec.ofNat 64 cInstrSize = 0) {orig : List Instr}
    (known : ∀ word ∈ orig, relocatable (A64.Instr.decode word) = true)
    (room : roomFor orig < data.length) :
    let made := makeTrampolineBackup trampolineRx ⟨data, 0, data.length⟩ orig origAddr
      origReturnAddr
    if accepts orig then ∃ out start, made = some out ∧ start 0 = trampolineRx ∧
      Follows effect orig origAddr origReturnAddr out.mData start
    else made = none := by
  have relocated := made_of_room aligned whole near distance known (Nat.le_of_lt room)
  dsimp only at relocated ⊢
  cases accepted : accepts orig with
  | true =>
    rw [accepted, if_pos rfl] at relocated
    obtain ⟨out, made, -⟩ := relocated
    obtain ⟨start, first, follows⟩ := follows_of_room effect le_rfl aligned whole near known room
      made
    exact ⟨out, start, made, first, follows⟩
  | false =>
    rw [accepted, if_neg Bool.false_ne_true] at relocated
    exact relocated

/-- `adrp x0`, `bl`, `nop` and `cbnz x1`. -/
def prologue : List Instr := [0xb0000020, 0x94000040, 0xd503201f, 0xb5000201]

theorem relocatable_prologue : ∀ word ∈ prologue, relocatable (A64.Instr.decode word) = true := by
  intro word member
  simp only [prologue, List.mem_cons, List.not_mem_nil, or_false] at member
  rcases member with rfl | rfl | rfl | rfl <;> rfl

/-- The effect of a `nop`, of other words none. -/
def nops : Effect Unit 0x1000 25 where
  run word c := if word = 0xd503201f then some c else none
  keeps word c d ran a _ := by
    split at ran
    · obtain rfl := Option.some.inj ran
      rfl
    · cases ran

/-- The backup of 25 words in memory that is far from the words. -/
theorem backup_follows_prologue :
    ∃ out start, makeTrampolineBackup 0x1000 ⟨List.replicate 25 0, 0, 25⟩ prologue 0x8000001000
      0x8000001010 = some out ∧ start 0 = (0x1000 : Ptr) ∧
        Follows nops prologue 0x8000001000 0x8000001010 out.mData start := by
  exact @backup_follows Unit 0x1000 0x8000001000 0x8000001010 (List.replicate 25 0) nops (by decide)
    (by decide) (by decide) (by decide) prologue relocatable_prologue (by decide)

end Hakkun.Hook
