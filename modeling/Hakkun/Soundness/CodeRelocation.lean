import Hakkun.Machine.A64.BlockRun
import Hakkun.Soundness.BufferedCode
import Hakkun.Soundness.LiteralPool
import Hakkun.Soundness.RelocatedWords

/-! # Relocation of code

What a relocation emits for a word does, where it is, what the word did at its own address. A branch
that is taken leads to the same target with the same registers, but for the scratch register and for
the address to return to, which is that of what is emitted for the next word. A branch with a
condition is inverted and leads over the words that follow it, so it is taken exactly where the
branch it stands for is not.
-/

namespace Hakkun.Hook

open A64

variable {pc : Ptr} {k : ℕ} {word : Instr}

/-- The address of a word that is ahead. -/
theorem ahead_toNat (near : k < 2 ^ 18) : (pc + BitVec.ofNat 64 (4 * k) - pc).toNat = 4 * k := by
  rw [BitVec.add_comm, BitVec.add_sub_cancel, BitVec.toNat_ofNat]
  omega

/-- A register of 5 bits is an X register. -/
theorem encodedRegister_field : ∀ rt : RegField,
    encodedRegister (rt.setWidth 64) = rt.setWidth 8 ∧ isX (rt.setWidth 8) = true := by decide

/-- The word of a branch to a word that is ahead. -/
theorem word_ahead {head : InstrBuilder} {width op : ℕ} (low : U32) (positive : 0 < width)
    (bound : width ≤ 18 + 1) (aligned : pc.toNat % 4 = 0) (near : k < 2 ^ (width - 1)) {diff : U32}
    (cut : diff.toNat % 2 ^ width =
      (instrDiff pc (pc + BitVec.ofNat 64 (4 * k))).toNat % 2 ^ width)
    (kind : head.mValue.toNat = op * 2 ^ (5 + width)) :
    ((head.set (4 + width) 5 diff).set 4 0 low).mValue.toNat =
      op * 2 ^ (5 + width) + k * 2 ^ 5 + low.toNat % 2 ^ 5 := by
  have clear : head.mValue.toNat % 2 ^ (5 + width) = 0 := by
    rw [kind]
    exact Nat.mul_mod_left _ _
  have fits : k < 2 ^ width :=
    Nat.lt_of_lt_of_le near (Nat.pow_le_pow_right (by decide) (Nat.sub_le _ _))
  have small : k < 2 ^ 18 :=
    Nat.lt_of_lt_of_le near (Nat.pow_le_pow_right (by decide) (by omega))
  rw [set_low _ (set_diff_mod diff positive (by omega) clear), set_diff diff positive (by omega)
    clear, kind, cut, instrDiff_toNat aligned, ahead_toNat small,
    Nat.mul_div_cancel_left _ (by decide), Nat.mod_eq_of_lt fits]

theorem decode_assembleBcond {cond : BitVec 4} (aligned : pc.toNat % 4 = 0) (near : k < 2 ^ 18)
    (assembled : assemble .Bcond
      { rd := 0, imm := pc + BitVec.ofNat 64 (4 * k), shiftImm := cond.setWidth 64 } pc =
        some word) :
    A64.Instr.decode word = .bcond cond (BitVec.ofNat 19 k) := by
  rw [assemble_of_registers (registers_of_assemble assembled)] at assembled
  change assembleBcond pc (pc + BitVec.ofNat 64 (4 * k)) (cond.setWidth 64) = some word at assembled
  have bound := cond.isLt
  have condition : ((cond.setWidth 64 : U64).setWidth 32 : U32).toNat = cond.toNat := by
    rw [BitVec.toNat_setWidth, BitVec.toNat_setWidth]
    omega
  have small : (cond.setWidth 64 : U64).toNat < 16 := by
    rw [BitVec.toNat_setWidth]
    omega
  have kind : ((InstrBuilder.mk 0).set 31 24 cOpBcond).mValue.toNat = 0b01010100 * 2 ^ (5 + 19) :=
    rfl
  have sum := word_ahead ((cond.setWidth 64 : U64).setWidth 32) (by decide) (by decide) aligned near
    (toNat_setWidth_mod _ (show 19 ≤ 32 by decide)) kind
  rw [← set_cond small (set_diff_mod _ (show 0 < 19 by decide) (by decide) rfl), condition] at sum
  rw [assembleBcond] at assembled
  split at assembled
  · split at assembled
    · have same := Option.some.inj assembled
      change (((((InstrBuilder.mk 0).set 31 24 cOpBcond).set (4 + 19) 5 _).set 4 4 0).set 3 0
        _).mValue = word at same
      have encoded : word = (A64.Instr.bcond cond (BitVec.ofNat 19 k)).encode := by
        rw [← same, ← BitVec.toNat_inj, A64.Instr.encode_toNat, A64.Instr.layout, sum,
          BitVec.toNat_ofNat]
        omega
      rw [encoded]
      exact A64.Instr.decode_encode _ trivial
    · cases assembled
  · cases assembled

theorem decode_assembleCbz {isCbz : Bool} {rt : RegField} (aligned : pc.toNat % 4 = 0)
    (near : k < 2 ^ 18)
    (assembled : assemble (if isCbz then .Cbz else .Cbnz)
      { rd := rt.setWidth 64, imm := pc + BitVec.ofNat 64 (4 * k) } pc = some word) :
    A64.Instr.decode word = .compareBranch true (!isCbz) (BitVec.ofNat 19 k) rt := by
  obtain ⟨register, wide⟩ := encodedRegister_field rt
  have assembled : assembleCbz isCbz (rt.setWidth 8) pc (pc + BitVec.ofNat 64 (4 * k)) =
      some word := by
    rw [← assembled, assemble_of_registers (registers_of_assemble assembled), ← register]
    cases isCbz <;> rfl
  have bound := rt.isLt
  have kind : (((InstrBuilder.mk 0).set 31 31 1).set 30 24
      (if isCbz then cOpCbz else cOpCbnz)).mValue.toNat =
        (0b10110100 + (!isCbz).toNat) * 2 ^ (5 + 19) := by
    cases isCbz <;> rfl
  have sum := word_ahead ((rt.setWidth 8 : IRegType).setWidth 32) (by decide) (by decide) aligned
    near (toNat_setWidth_mod _ (show 19 ≤ 32 by decide)) kind
  have field : ((rt.setWidth 8 : IRegType).setWidth 32 : U32).toNat = rt.toNat := by
    rw [BitVec.toNat_setWidth, BitVec.toNat_setWidth]
    omega
  rw [field] at sum
  rw [assembleCbz, wide] at assembled
  split at assembled
  · have same := Option.some.inj assembled
    change (((((InstrBuilder.mk 0).set 31 31 1).set 30 24 _).set (4 + 19) 5 _).set 4 0 _).mValue =
      word at same
    have encoded : word = (A64.Instr.compareBranch true (!isCbz) (BitVec.ofNat 19 k) rt).encode := by
      have sense := (!isCbz).toNat_lt
      rw [← same, ← BitVec.toNat_inj, A64.Instr.encode_toNat, A64.Instr.layout, sum,
        BitVec.toNat_ofNat, Bool.toNat_true]
      omega
    rw [encoded]
    exact A64.Instr.decode_encode _ trivial
  · cases assembled

/-- The bits above the distance of a test of a bit. -/
theorem bit_head : ∀ (isTbz : Bool) (bit : BitVec 6),
    ((((InstrBuilder.mk 0).set 31 31
      (if (bit.setWidth 64 : U64).setWidth 32 &&& 1#32 <<< 5 ≠ 0 then 1 else 0)).set 30 24
        (if isTbz then cOpTbz else cOpTbnz)).set 23 19
          ((bit.setWidth 64 : U64).setWidth 32 &&& (bits 5).setWidth 32)).mValue.toNat =
      (bit.toNat / 32 * 2 ^ 12 + (0b0110110 + (!isTbz).toNat) * 2 ^ 5 + bit.toNat % 32) *
        2 ^ (5 + 14) := by decide

theorem decode_assembleTbz {isTbz : Bool} {bit : BitVec 6} {rt : RegField}
    (aligned : pc.toNat % 4 = 0) (near : k < 2 ^ 13)
    (assembled : assemble (if isTbz then .Tbz else .Tbnz)
      { rd := rt.setWidth 64, imm := pc + BitVec.ofNat 64 (4 * k), shiftImm := bit.setWidth 64 } pc =
        some word) :
    A64.Instr.decode word = .testBranch (!isTbz) bit (BitVec.ofNat 14 k) rt := by
  obtain ⟨register, -⟩ := encodedRegister_field rt
  have assembled : assembleTbz isTbz (rt.setWidth 8) pc (pc + BitVec.ofNat 64 (4 * k))
      (bit.setWidth 64) = some word := by
    rw [← assembled, assemble_of_registers (registers_of_assemble assembled), ← register]
    cases isTbz <;> rfl
  have bound := rt.isLt
  have index := bit.isLt
  have cut : (((instrDiff pc (pc + BitVec.ofNat 64 (4 * k))).setWidth 16).setWidth 32 : U32).toNat %
      2 ^ 14 = (instrDiff pc (pc + BitVec.ofNat 64 (4 * k))).toNat % 2 ^ 14 := by
    rw [BitVec.toNat_setWidth, BitVec.toNat_setWidth]
    omega
  have sum := word_ahead ((rt.setWidth 8 : IRegType).setWidth 32) (by decide) (by decide) aligned
    near cut (bit_head isTbz bit)
  have field : ((rt.setWidth 8 : IRegType).setWidth 32 : U32).toNat = rt.toNat := by
    rw [BitVec.toNat_setWidth, BitVec.toNat_setWidth]
    omega
  rw [field] at sum
  rw [assembleTbz] at assembled
  split at assembled
  · dsimp only at assembled
    split at assembled
    · have same := Option.some.inj assembled
      change ((((((InstrBuilder.mk 0).set 31 31 _).set 30 24 _).set 23 19 _).set (4 + 14) 5 _).set
        4 0 _).mValue = word at same
      have encoded : word = (A64.Instr.testBranch (!isTbz) bit (BitVec.ofNat 14 k) rt).encode := by
        have sense := (!isTbz).toNat_lt
        rw [← same, ← BitVec.toNat_inj, A64.Instr.encode_toNat, A64.Instr.layout, sum,
          BitVec.toNat_ofNat]
        omega
      rw [encoded]
      exact A64.Instr.decode_encode _ trivial
    · cases assembled
  · cases assembled

/-! ## Which of the two is taken -/

/-- Of a branch and another one, executed with the same registers and flags, one is taken. -/
structure Inverts (first second : A64.Instr) (offset ahead : Ptr) : Prop where
  conditional : conditional first = true ∧ conditional second = true
  taken : ∀ s t : State, s.registers = t.registers → s.flags = t.flags →
    (taken s first = some (s.jump (s.pc + offset)) ∧ taken t second = none) ∨
      (taken s first = none ∧ taken t second = some (t.jump (t.pc + ahead)))

/-- A condition that decides each of the branches. -/
theorem inverts_of_decided {first second : A64.Instr} {offset ahead : Ptr}
    (straight : conditional first = true ∧ conditional second = true) (p : State → Bool)
    (same : ∀ s t : State, s.registers = t.registers → s.flags = t.flags → p s = p t)
    (one : ∀ s, taken s first = if p s then some (s.jump (s.pc + offset)) else none)
    (other : ∀ s, taken s second = if p s then none else some (s.jump (s.pc + ahead))) :
    Inverts first second offset ahead := by
  refine ⟨straight, ?_⟩
  intro s t registers flags
  rw [one, other, ← same s t registers flags]
  cases p s
  · exact .inr ⟨rfl, rfl⟩
  · exact .inl ⟨rfl, rfl⟩

theorem inverts_bcond {cond : BitVec 4} (real : cond.toNat < 14) (imm ahead : BitVec 19) :
    Inverts (.bcond cond imm) (.bcond (cond ^^^ 1) ahead) (wordOffset imm) (wordOffset ahead) := by
  apply inverts_of_decided ⟨rfl, rfl⟩ fun s => holds cond s.flags
  · intro s t _ flags
    rw [flags]
  · intro s
    rfl
  · intro s
    rw [taken, holds_xor_one cond s.flags real]
    cases holds cond s.flags <;> rfl

theorem inverts_compare (nonzero : Bool) (rt : RegField) (imm ahead : BitVec 19) :
    Inverts (.compareBranch true nonzero imm rt) (.compareBranch true (!nonzero) ahead rt)
      (wordOffset imm) (wordOffset ahead) := by
  apply inverts_of_decided ⟨rfl, rfl⟩ fun s => (compared s true rt != 0) == nonzero
  · intro s t registers _
    rw [compared, compared, registers]
  · intro s
    rw [taken]
    cases compared s true rt != 0 <;> cases nonzero <;> rfl
  · intro s
    rw [taken]
    cases compared s true rt != 0 <;> cases nonzero <;> rfl

theorem inverts_bit (nonzero : Bool) (bit : BitVec 6) (rt : RegField) (imm ahead : BitVec 14) :
    Inverts (.testBranch nonzero bit imm rt) (.testBranch (!nonzero) bit ahead rt)
      (wordOffset imm) (wordOffset ahead) := by
  apply inverts_of_decided ⟨rfl, rfl⟩ fun s =>
    (s.registers.read rt).getLsbD bit.toNat == nonzero
  · intro s t registers _
    rw [registers]
  · intro s
    rw [taken]
    cases (s.registers.read rt).getLsbD bit.toNat <;> cases nonzero <;> rfl
  · intro s
    rw [taken]
    cases (s.registers.read rt).getLsbD bit.toNat <;> cases nonzero <;> rfl

/-- The distance to a word that is ahead, in a field that has room for its sign. -/
theorem wordOffset_ahead {width : ℕ} (bound : width ≤ 18) (near : k < 2 ^ width) :
    wordOffset (BitVec.ofNat (width + 1) k) = BitVec.ofNat 64 (4 * k) := by
  have power : 2 ^ width ≤ 2 ^ 18 := Nat.pow_le_pow_right (by decide) bound
  have double : 2 ^ (width + 1) = 2 ^ width * 2 := Nat.pow_succ ..
  have inside : k < 2 ^ (width + 1) := by omega
  rw [wordOffset, ← BitVec.toNat_inj, BitVec.toNat_shiftLeft, Nat.shiftLeft_eq,
    BitVec.toNat_signExtend, BitVec.msb_eq_decide, BitVec.toNat_setWidth, BitVec.toNat_ofNat,
    BitVec.toNat_ofNat, Nat.mod_eq_of_lt inside, Nat.add_sub_cancel,
    decide_eq_false (Nat.not_le.mpr near)]
  simp only [Bool.false_eq_true, if_false]
  omega

end Hakkun.Hook

/-! ## Words that are carried -/

namespace Hakkun.Hook

open A64

/-- The words whose meaning a relocation keeps, or that it refuses. The zero register is not set to
an address, a condition can be inverted, a comparison is one of 64 bits, and no literal is loaded
but by a load that is refused. -/
def relocatable : A64.Instr → Bool
  | .adr rd _ | .adrp rd _ => rd != 31
  | .bcond cond _ => decide (cond.toNat < 14)
  | .compareBranch sf _ _ _ => sf
  | .literal opc vector _ _ => decide (opc.toNat < 2) && !vector
  | _ => true

section

variable {ρ : Type} {mRx : Ptr} {count : ℕ} (effect : Effect ρ mRx count)

/-- What is added to a buffer does what the word does at an address. -/
structure Carries (word : Instr) (pc : Ptr) (out next : VecSpan) (data : List Instr)
    (c : Core ρ) : Prop where
  branches : ∀ t, taken c.toState (A64.Instr.decode word) = some t → ∃ scratch,
    Core.Reaches effect { c with pc := calcCurRxAddr mRx out }
      { c with toState := { t with
        registers := atTarget t.registers scratch (links (A64.Instr.decode word))
          (calcCurRxAddr mRx next) } }
  goes : ∀ d, taken c.toState (A64.Instr.decode word) = none → goesOn effect c word = some d →
    Core.Reaches effect { c with pc := calcCurRxAddr mRx out }
      { d with pc := calcCurRxAddr mRx next }

/-- It does so in every state from which the word is executed. -/
def CarriesAll (word : Instr) (pc : Ptr) (out next : VecSpan) : Prop :=
  ∀ data (c : Core ρ), Agrees out.mSize next data → c.pc = pc → A64.Loaded c.memory mRx data →
    Carries effect word pc out next data c

variable {effect} {word : Instr} {pc : Ptr} {out next : VecSpan}

theorem general_of_field : ∀ rd : RegField, rd ≠ 31 →
    General (rd.setWidth 8) ∧ field (rd.setWidth 8) = rd := by decide

theorem carries_address {rd : RegField} {imm : BitVec 21} {target : Ptr} {result : ℕ × VecSpan}
    (fits : out.Fits) (aligned : mRx.toNat % 4 = 0) (near : out.mData.length ≤ 2 ^ 18)
    (decoded : (A64.Instr.decode word = .adr rd imm ∧ target = pc + imm.signExtend 64) ∨
      (A64.Instr.decode word = .adrp rd imm ∧ target = adrpAddress pc imm))
    (general : rd ≠ 31)
    (moved : emitMovImmediate64 true mRx out (rd.setWidth 8) target = some result) :
    Grows out result.2 ∧ (result.2.Spare → CarriesAll effect word pc out result.2) := by
  obtain ⟨register, number⟩ := general_of_field rd general
  obtain ⟨grows, -, emits⟩ := emits_move fits aligned register near moved
  rw [number] at emits
  refine ⟨grows, ?_⟩
  rintro spare data c agrees rfl loaded
  have executes : taken c.toState (A64.Instr.decode word) = none ∧
      goesOn effect c word = some { c with toState := c.toState.set rd target } := by
    rw [goesOn]
    rcases decoded with ⟨decoded, rfl⟩ | ⟨decoded, rfl⟩ <;> rw [decoded] <;> exact ⟨rfl, rfl⟩
  constructor
  · intro t took
    rw [executes.1] at took
    cases took
  · intro d _ gone
    obtain rfl := Option.some.inj (executes.2.symm.trans gone)
    obtain ⟨n, t, ran, rfl⟩ := emits spare data
      { c.toState with pc := calcCurRxAddr mRx out } agrees rfl loaded
    have reaches : Core.Reaches effect { c with pc := calcCurRxAddr mRx out } _ :=
      Core.reaches_of_steps ran
    exact reaches

theorem wordOffset_aligned {width : ℕ} (imm : BitVec width) : (wordOffset imm).toNat % 4 = 0 := by
  rw [wordOffset, BitVec.toNat_shiftLeft, Nat.shiftLeft_eq]
  omega

theorem target_aligned {width : ℕ} (aligned : pc.toNat % 4 = 0) (imm : BitVec width) :
    (pc + wordOffset imm).toNat % 4 = 0 := by
  have offset := wordOffset_aligned imm
  rw [BitVec.toNat_add]
  omega

/-- A register that is written again after the scratch register. -/
theorem atTarget_write (registers : Registers) (scratch value returnTo : U64) :
    atTarget (registers.write 30 value) scratch true returnTo =
      atTarget registers scratch true returnTo := by
  funext q
  simp only [atTarget, Registers.write, if_true]
  split
  · rfl
  · rfl

/-- A branch without a condition, to an address that is in the word. -/
theorem carries_branch {imm : BitVec 26} {link : Bool} {result : ℕ × VecSpan} (fits : out.Fits)
    (aligned : mRx.toNat % 4 = 0) (near : out.mData.length ≤ 2 ^ 18) (whole : pc.toNat % 4 = 0)
    (decoded : A64.Instr.decode word = if link then .bl imm else .b imm)
    (emitted : emitBranch true mRx out (pc + wordOffset imm) link = some result) :
    Grows out result.2 ∧ (result.2.Spare → CarriesAll effect word pc out result.2) := by
  obtain ⟨grows, -, -, emits⟩ := emits_branch fits aligned (target_aligned whole imm) near emitted
  refine ⟨grows, ?_⟩
  rintro spare data c agrees rfl loaded
  obtain ⟨n, t, ran, scratch, rfl⟩ := emits spare data
    { c.toState with pc := calcCurRxAddr mRx out } agrees rfl loaded
  have reaches : Core.Reaches effect { c with pc := calcCurRxAddr mRx out } _ :=
    Core.reaches_of_steps ran
  constructor
  · intro t took
    refine ⟨scratch, ?_⟩
    rw [decoded] at took ⊢
    cases link with
    | false =>
      obtain rfl := Option.some.inj took
      exact reaches
    | true =>
      obtain rfl := Option.some.inj took
      have same := atTarget_write c.registers scratch (c.pc + 4) (calcCurRxAddr mRx result.2)
      change Core.Reaches effect _ { c with
        registers := atTarget (c.registers.write 30 (c.pc + 4)) scratch true
          (calcCurRxAddr mRx result.2)
        pc := c.pc + wordOffset imm }
      rw [same]
      exact reaches
  · intro d untaken
    rw [decoded] at untaken
    cases link <;> cases untaken

/-- A word that does not depend on its address is copied. -/
theorem carries_movable (fits : out.Fits) (moves : movable (A64.Instr.decode word) = true)
    (added : out.add word = some next) :
    Grows out next ∧ CarriesAll effect word pc out next := by
  rw [← VecSpan.addAll_one] at added
  obtain ⟨rfl, grows⟩ := Grows.addAll fits added
  refine ⟨grows, ?_⟩
  rintro data c agrees rfl loaded
  have here := agrees.loaded fits (room_of_addAll fits.below added) loaded
  have after : calcCurRxAddr mRx out + 4 = calcCurRxAddr mRx (out.append [word]) :=
    (calcCurRxAddr_append mRx out [word]).symm
  constructor
  · intro t took
    refine ⟨c.registers (field IP0), .head (Core.step_of_taken here ?_) (.refl _)⟩
    generalize A64.Instr.decode word = i at *
    cases linked : links i with
    | false =>
      rw [atTarget, if_neg Bool.false_ne_true]
      have kept : t.registers (field IP0) = c.registers (field IP0) := by
        cases i with
        | br | ret =>
          obtain rfl := Option.some.inj took
          rfl
        | b | bl | bcond | compareBranch | testBranch => cases moves
        | blr => cases linked
        | _ => cases took
      rw [← kept, Registers.write_self]
      exact (taken_at moves linked (calcCurRxAddr mRx out)).trans took
    | true =>
      cases i with
      | blr rn =>
        obtain rfl := Option.some.inj took
        have same := atTarget_write c.registers (c.registers (field IP0)) (c.pc + 4)
          (calcCurRxAddr mRx out + 4)
        rw [atTarget, atTarget, if_pos rfl, if_pos rfl, Registers.write_self] at same
        rw [atTarget, if_pos rfl, ← after]
        exact congrArg (fun registers => some
          ({ c.toState with registers := registers, pc := c.registers.read rn } : State)) same.symm
      | bl => cases moves
      | _ => cases linked
  · intro d untaken gone
    have straight : links (A64.Instr.decode word) = false := by
      generalize A64.Instr.decode word = i at *
      cases i with
      | bl | blr => cases untaken
      | _ => rfl
    refine .head (Core.step_of_untaken here ?_ ?_) (.refl _)
    · exact (taken_at moves straight (calcCurRxAddr mRx out)).trans untaken
    · have moved := goesOn_at effect moves untaken (calcCurRxAddr mRx out)
      rw [gone, Option.map_some, after] at moved
      exact moved

theorem calcRxAddr_mSize (mRx : Ptr) (out : VecSpan) :
    calcRxAddr mRx out.mSize = calcCurRxAddr mRx out := by
  rw [calcRxAddr, calcCurRxAddr, Nat.mul_comm]

/-- A branch with a condition becomes the inverted one over a branch to its target. -/
theorem carries_conditional {type : IInstrType} {rd shiftImm offset : U64} (fits : out.Fits)
    (aligned : mRx.toNat % 4 = 0) (near : out.mData.length ≤ 2 ^ 18)
    (whole : (pc + offset).toNat % 4 = 0)
    (inverts : ∀ k instr, k < 2 ^ 13 →
      assemble type
        { rd := rd, imm := calcCurRxAddr mRx out + BitVec.ofNat 64 (4 * k), shiftImm := shiftImm }
        (calcCurRxAddr mRx out) = some instr →
      Inverts (A64.Instr.decode word) (A64.Instr.decode instr) offset (BitVec.ofNat 64 (4 * k)))
    (relocated : relocateConditional mRx out type rd shiftImm (pc + offset) = some next) :
    Grows out next ∧ (next.Spare → CarriesAll effect word pc out next) := by
  rw [relocateConditional] at relocated
  obtain ⟨first, added, rest⟩ := Option.bind_eq_some_iff.mp relocated
  obtain ⟨⟨count, last⟩, emitted, rest⟩ := Option.bind_eq_some_iff.mp rest
  obtain ⟨instr, assembled, rfl⟩ := Option.map_eq_some_iff.mp rest
  rw [← VecSpan.addAll_one] at added
  obtain ⟨same, start⟩ := Grows.addAll fits added
  have size : first.mSize = out.mSize + 1 := addAll_size added
  obtain ⟨grows, behind, few, emits⟩ := emits_branch start.fits aligned whole
    (start.length.symm ▸ near) emitted
  dsimp only at grows behind few emits
  have ahead : calcCurRxAddr mRx last =
      calcCurRxAddr mRx out + BitVec.ofNat 64 (4 * (last.mSize - out.mSize)) := by
    rw [calcCurRxAddr, calcCurRxAddr, cInstrSize, BitVec.add_assoc, ← BitVec.ofNat_add,
      ← Nat.mul_add, Nat.add_sub_cancel' (by omega)]
  have next_ : calcCurRxAddr mRx out + 4 = calcCurRxAddr mRx first := by
    rw [same, calcCurRxAddr_append]
    rfl
  rw [calcRxAddr_mSize, ahead] at assembled
  have inverted := inverts _ instr (by omega) assembled
  have patched := (start.trans grows).patch instr le_rfl (show out.mSize < last.mSize by omega)
  refine ⟨patched, ?_⟩
  rintro spare data c agrees rfl loaded
  have before : last.Spare := fun literals => spare (by
    rw [List.length_set]
    exact literals)
  have later : Agrees first.mSize last data := by
    refine ⟨agrees.length.trans List.length_set, ?_⟩
    intro i from_ used
    have used_ := agrees.used i (by omega)
    rw [VecSpan.Used, List.length_set] at used_
    rw [used_ used, List.getElem?_set_ne (by omega)]
  have here : A64.Loaded c.memory (calcCurRxAddr mRx out) [instr] := by
    have inside : out.mSize < last.mData.length :=
      Nat.lt_of_lt_of_le (show out.mSize < last.mSize by omega)
        (Nat.le_trans grows.fits.below grows.fits.whole)
    have held : data[out.mSize]? = some instr := by
      rw [agrees.used _ le_rfl (.inl (show out.mSize < last.mSize by omega)),
        List.getElem?_set_self inside]
    have at_ := loaded _ _ held
    intro i word one
    obtain ⟨rfl, rfl⟩ : i = 0 ∧ instr = word := by
      cases i with
      | zero => exact ⟨rfl, Option.some.inj one⟩
      | succ i => cases one
    rw [Nat.mul_zero, BitVec.add_zero]
    exact at_
  have goes : goesOn effect c word = some { c with pc := c.pc + 4 } := by
    rw [goesOn, if_pos inverted.conditional.1]
  have stays : goesOn effect { c with pc := calcCurRxAddr mRx out } instr =
      some { c with pc := calcCurRxAddr mRx out + 4 } := by
    rw [goesOn, if_pos inverted.conditional.2]
  have unlinked : links (A64.Instr.decode word) = false := by
    have straight := inverted.conditional.1
    generalize A64.Instr.decode word = i at straight
    cases i <;> first | rfl | cases straight
  rcases inverted.taken c.toState { c.toState with pc := calcCurRxAddr mRx out } rfl rfl with
    ⟨took, other⟩ | ⟨untaken, other⟩
  · constructor
    · intro t taken
      obtain rfl := Option.some.inj (took.symm.trans taken)
      rw [next_] at stays
      obtain ⟨n, t, ran, scratch, rfl⟩ := emits before data
        { c.toState with pc := calcCurRxAddr mRx first } later rfl loaded
      have reaches : Core.Reaches effect { c with pc := calcCurRxAddr mRx first } _ :=
        Core.reaches_of_steps ran
      refine ⟨scratch, .head (Core.step_of_untaken here other stays) ?_⟩
      rw [unlinked]
      exact reaches
    · intro d untaken
      rw [took] at untaken
      cases untaken
  · constructor
    · intro t taken
      rw [untaken] at taken
      cases taken
    · intro d _ gone
      obtain rfl := Option.some.inj (goes.symm.trans gone)
      refine .head (Core.step_of_taken here other) ?_
      have arrives : calcCurRxAddr mRx { last with mData := last.mData.set out.mSize instr } =
          calcCurRxAddr mRx out + BitVec.ofNat 64 (4 * (last.mSize - out.mSize)) := ahead
      rw [arrives]
      exact .refl _

/-- What the flag that no return is emitted becomes after a word. -/
def Skips (word : Instr) (isLast before after : Bool) : Prop :=
  after = before ∧ (∀ imm, A64.Instr.decode word ≠ .b imm) ∨
    isLast = true ∧ after = true ∧ ∃ imm, A64.Instr.decode word = .b imm

/-- Each word that is relocated is carried. -/
theorem carries_relocate {before after isLast : Bool} (fits : out.Fits)
    (aligned : mRx.toNat % 4 = 0) (near : out.mData.length ≤ 2 ^ 18) (whole : pc.toNat % 4 = 0)
    (known : relocatable (A64.Instr.decode word) = true)
    (relocated : relocate mRx out before word pc isLast = some (next, after)) :
    Grows out next ∧ (next.Spare → CarriesAll effect word pc out next) ∧
      Skips word isLast before after := by
  have start := calcCurRxAddr_aligned aligned out
  cases decoded : A64.Instr.decode word with
  | adr rd imm =>
    rw [relocate_address (.inl ⟨decoded, rfl⟩)] at relocated
    obtain ⟨result, moved, same⟩ := Option.map_eq_some_iff.mp relocated
    cases same
    rw [decoded, relocatable, bne_iff_ne] at known
    obtain ⟨grows, carries⟩ := carries_address fits aligned near (.inl ⟨decoded, rfl⟩) known moved
    exact ⟨grows, carries, .inl ⟨rfl, by simp [decoded]⟩⟩
  | adrp rd imm =>
    rw [relocate_address (.inr ⟨decoded, rfl⟩)] at relocated
    obtain ⟨result, moved, same⟩ := Option.map_eq_some_iff.mp relocated
    cases same
    rw [decoded, relocatable, bne_iff_ne] at known
    obtain ⟨grows, carries⟩ := carries_address fits aligned near (.inr ⟨decoded, rfl⟩) known moved
    exact ⟨grows, carries, .inl ⟨rfl, by simp [decoded]⟩⟩
  | b imm =>
    rw [relocate_b decoded] at relocated
    split at relocated
    · rename_i last
      obtain ⟨result, emitted, same⟩ := Option.map_eq_some_iff.mp relocated
      cases same
      obtain ⟨grows, carries⟩ := carries_branch fits aligned near whole decoded emitted
      exact ⟨grows, carries, .inr ⟨last, rfl, imm, decoded⟩⟩
    · cases relocated
  | bl imm =>
    rw [relocate_bl decoded] at relocated
    obtain ⟨result, emitted, same⟩ := Option.map_eq_some_iff.mp relocated
    cases same
    obtain ⟨grows, carries⟩ := carries_branch fits aligned near whole decoded emitted
    exact ⟨grows, carries, .inl ⟨rfl, by simp [decoded]⟩⟩
  | bcond cond imm =>
    rw [relocate_bcond decoded] at relocated
    split at relocated
    · obtain ⟨result, conditional, same⟩ := Option.map_eq_some_iff.mp relocated
      cases same
      rw [decoded, relocatable, decide_eq_true_eq] at known
      obtain ⟨grows, carries⟩ := carries_conditional fits aligned near (target_aligned whole imm)
        (fun k instr small assembled => by
          have wide : k < 2 ^ 18 := Nat.lt_trans small (by decide)
          have inverts := inverts_bcond known imm (BitVec.ofNat 19 k)
          rw [wordOffset_ahead le_rfl wide] at inverts
          rwa [decoded, decode_assembleBcond start wide assembled]) conditional
      exact ⟨grows, carries, .inl ⟨rfl, by simp [decoded]⟩⟩
    · cases relocated
  | compareBranch sf nonzero imm rt =>
    rw [relocate_compare decoded] at relocated
    split at relocated
    · obtain ⟨result, conditional, same⟩ := Option.map_eq_some_iff.mp relocated
      cases same
      rw [decoded, relocatable] at known
      subst known
      obtain ⟨grows, carries⟩ := carries_conditional fits aligned near (target_aligned whole imm)
        (fun k instr small assembled => by
          have wide : k < 2 ^ 18 := Nat.lt_trans small (by decide)
          have inverts := inverts_compare nonzero rt imm (BitVec.ofNat 19 k)
          rw [wordOffset_ahead le_rfl wide] at inverts
          rwa [decoded, decode_assembleCbz start wide assembled]) conditional
      exact ⟨grows, carries, .inl ⟨rfl, by simp [decoded]⟩⟩
    · cases relocated
  | testBranch nonzero bit imm rt =>
    rw [relocate_bit decoded] at relocated
    split at relocated
    · obtain ⟨result, conditional, same⟩ := Option.map_eq_some_iff.mp relocated
      cases same
      obtain ⟨grows, carries⟩ := carries_conditional fits aligned near (target_aligned whole imm)
        (fun k instr small assembled => by
          have inverts := inverts_bit nonzero bit rt imm (BitVec.ofNat 14 k)
          rw [wordOffset_ahead (by decide) small] at inverts
          rwa [decoded, decode_assembleTbz start small assembled]) conditional
      exact ⟨grows, carries, .inl ⟨rfl, by simp [decoded]⟩⟩
    · cases relocated
  | literal opc vector imm rt =>
    rw [decoded, relocatable, Bool.and_eq_true, decide_eq_true_eq, Bool.not_eq_true'] at known
    obtain ⟨small, rfl⟩ := known
    rw [relocate_literal small decoded] at relocated
    cases relocated
  | _ =>
    have moves : movable (A64.Instr.decode word) = true := by rw [decoded]; rfl
    rw [relocate_movable moves] at relocated
    obtain ⟨result, added, same⟩ := Option.map_eq_some_iff.mp relocated
    cases same
    obtain ⟨grows, carries⟩ := carries_movable fits moves added
    exact ⟨grows, fun _ => carries, .inl ⟨rfl, by simp [decoded]⟩⟩

end

end Hakkun.Hook
