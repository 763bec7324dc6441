import Hakkun.Soundness.CodeRelocation

/-! # Backups keep the meaning of the words that a hook overwrites

A backup that is executed does what the original words did at their address, up to the first branch
that is taken, and goes on at the address to return to. A call from it returns to the code for the
rest of the words, which does what they do.
-/

namespace Hakkun.Hook

open A64

/-- The words can be entered at an index: at one of them, or behind the last one if that is not a
branch without a condition. -/
def Enters (words : List Instr) (j : ℕ) : Prop :=
  j < words.length ∨
    j = words.length ∧ ∀ word ∈ words.getLast?, ∀ imm, A64.Instr.decode word ≠ .b imm

theorem Enters.tail {word : Instr} {words : List Instr} {j : ℕ}
    (enters : Enters (word :: words) (j + 1)) : Enters words j := by
  rcases enters with inside | ⟨behind, last⟩
  · exact .inl (Nat.lt_of_succ_lt_succ inside)
  · refine .inr ⟨Nat.succ.inj behind, ?_⟩
    cases words with
    | nil => exact fun _ member => nomatch member
    | cons next words => exact last

theorem enters_zero (words : List Instr) : Enters words 0 := by
  cases words with
  | nil => exact .inr ⟨rfl, fun _ member => nomatch member⟩
  | cons word words => exact .inl (Nat.succ_pos _)

section

variable {ρ : Type} {mRx : Ptr} {count : ℕ}

/-- Where a backup is when the words have ended: at the address to return to, or where the words
have branched to. The scratch register is lost; a call returns to the words that are left. -/
def Arrives (start : ℕ → Ptr) (total : ℕ) (returnTo : Ptr) : Exit ρ → Core ρ → Prop
  | .past c, d => ∃ scratch,
    d = { c with registers := atTarget c.registers scratch false returnTo, pc := returnTo }
  | .left c, d => ∃ scratch, d = { c with registers := atTarget c.registers scratch false returnTo }
  | .called more c, d => ∃ scratch,
    d = { c with registers := atTarget c.registers scratch true (start (total - more)) }

/-- From an index on, the data does what the words do from there on. -/
def Follows (effect : Effect ρ mRx count) (words : List Instr) (origAddr returnTo : Ptr)
    (data : List Instr) (start : ℕ → Ptr) : Prop :=
  ∀ j (c : Core ρ) exit, Enters words j → c.pc = origAddr + BitVec.ofNat 64 (4 * j) →
    A64.Loaded c.memory mRx data → blockRun effect (words.drop j) c = some exit →
      ∃ d, Core.Reaches effect { c with pc := start j } d ∧
        Arrives start words.length returnTo exit d

variable {effect : Effect ρ mRx count}

/-- A call leaves fewer words than there are. -/
theorem more_lt_of_called {words : List Instr} {c d : Core ρ} {more : ℕ}
    (ran : blockRun effect words c = some (.called more d)) : more < words.length := by
  induction words generalizing c with
  | nil => cases ran
  | cons word words ih =>
    rw [blockRun] at ran
    split at ran
    · split at ran
      · cases ran
        exact Nat.lt_succ_self _
      · cases ran
    · obtain ⟨middle, -, ran⟩ := Option.bind_eq_some_iff.mp ran
      exact Nat.lt_succ_of_lt (ih ran)

/-- Where the code for the words starts: that for the first one, and that for the others. -/
def startsAt (first : Ptr) (start : ℕ → Ptr) : ℕ → Ptr
  | 0 => first
  | j + 1 => start j

/-- An exit is met at the same places when words stand before those that it is from. -/
theorem arrives_tail {start : ℕ → Ptr} {first returnTo : Ptr} {total : ℕ} {exit : Exit ρ}
    {d : Core ρ} (inside : ∀ more c, exit = .called more c → more < total)
    (arrives : Arrives start total returnTo exit d) :
    Arrives (startsAt first start) (total + 1) returnTo exit d := by
  cases exit with
  | past c => exact arrives
  | left c => exact arrives
  | called more c =>
    have fewer := inside more c rfl
    rwa [Arrives, Nat.succ_sub (Nat.le_of_lt fewer)]

/-- The first of the words, when it branches. -/
theorem arrives_branch {word : Instr} {words data : List Instr} {origAddr returnTo : Ptr}
    {out next : VecSpan} {start : ℕ → Ptr} {c : Core ρ} {t : State} {exit : Exit ρ}
    (carries : Carries effect word origAddr out next data c)
    (here : start 0 = calcCurRxAddr mRx next)
    (took : taken c.toState (A64.Instr.decode word) = some t)
    (ran : blockRun effect (word :: words) c = some exit) :
    ∃ d, Core.Reaches effect { c with pc := calcCurRxAddr mRx out } d ∧
      Arrives (startsAt (calcCurRxAddr mRx out) start) (words.length + 1) returnTo exit d := by
  obtain ⟨scratch, reaches⟩ := carries.branches t took
  rw [blockRun, took] at ran
  refine ⟨_, reaches, ?_⟩
  dsimp only at ran
  split at ran
  · rename_i linked
    obtain rfl := Option.some.inj ran
    refine ⟨scratch, ?_⟩
    rw [linked, Nat.add_sub_cancel_left, startsAt, here]
  · rename_i unlinked
    obtain rfl := Option.some.inj ran
    refine ⟨scratch, ?_⟩
    rw [Bool.not_eq_true] at unlinked
    rw [unlinked]
    rfl

/-- The code for words behind one that is carried. -/
theorem follows_cons {word : Instr} {words data : List Instr} {origAddr returnTo : Ptr}
    {out next : VecSpan} {start : ℕ → Ptr} (fits : data.length ≤ count)
    (carries : ∀ c : Core ρ, c.pc = origAddr → A64.Loaded c.memory mRx data →
      Carries effect word origAddr out next data c)
    (here : start 0 = calcCurRxAddr mRx next)
    (follows : Follows effect words (origAddr + 4) returnTo data start) :
    Follows effect (word :: words) origAddr returnTo data
      (startsAt (calcCurRxAddr mRx out) start) := by
  intro j c exit enters pc loaded ran
  cases j with
  | zero =>
    rw [Nat.mul_zero, BitVec.add_zero] at pc
    have carried := carries c pc loaded
    rw [List.drop_zero] at ran
    cases took : taken c.toState (A64.Instr.decode word) with
    | some t => exact arrives_branch carried here took ran
    | none =>
      rw [blockRun, took] at ran
      obtain ⟨d, gone, ran⟩ := Option.bind_eq_some_iff.mp ran
      have after : d.pc = origAddr + 4 + BitVec.ofNat 64 (4 * 0) := by
        rw [goesOn_pc effect took gone, pc, Nat.mul_zero, BitVec.add_zero]
      have stays := loaded_of_goesOn effect gone fits loaded
      obtain ⟨e, reaches, arrives⟩ := follows 0 d exit (enters_zero words) after stays ran
      rw [here] at reaches
      refine ⟨e, (carried.goes d took gone).trans reaches, arrives_tail ?_ arrives⟩
      rintro more c rfl
      exact more_lt_of_called ran
  | succ j =>
    have there : c.pc = origAddr + 4 + BitVec.ofNat 64 (4 * j) := by
      rw [pc, Nat.mul_succ, Nat.add_comm, BitVec.ofNat_add, ← BitVec.add_assoc]
      rfl
    rw [List.drop_succ_cons] at ran
    obtain ⟨d, reaches, arrives⟩ := follows j c exit enters.tail there loaded ran
    refine ⟨d, reaches, arrives_tail ?_ arrives⟩
    rintro more c rfl
    have fewer := more_lt_of_called ran
    rw [List.length_drop] at fewer
    omega

/-- The code for a branch without a condition, which is the last word. -/
theorem follows_b {word : Instr} {data : List Instr} {origAddr returnTo : Ptr}
    {out next : VecSpan} {imm : BitVec 26} (decoded : A64.Instr.decode word = .b imm)
    (carries : ∀ c : Core ρ, c.pc = origAddr → A64.Loaded c.memory mRx data →
      Carries effect word origAddr out next data c) :
    Follows effect [word] origAddr returnTo data
      (startsAt (calcCurRxAddr mRx out) fun _ => calcCurRxAddr mRx next) := by
  intro j c exit enters pc loaded ran
  obtain rfl : j = 0 := by
    rcases enters with inside | ⟨-, last⟩
    · exact Nat.lt_one_iff.mp inside
    · exact absurd decoded (last word rfl imm)
  rw [Nat.mul_zero, BitVec.add_zero] at pc
  have took : taken c.toState (A64.Instr.decode word) =
      some (c.jump (c.pc + wordOffset imm)) := by
    rw [decoded]
    rfl
  exact arrives_branch (carries c pc loaded) rfl took ran

end

/-! ## The loop -/

/-- One pass of the loop over the words, and what is emitted behind them. -/
def relocateStep (trampolineRx origAddr : Ptr) (total : ℕ) :
    VecSpan × Bool → Instr × ℕ → Option (VecSpan × Bool) :=
  fun (out, skipReturn) (origInstr, i) =>
    relocate trampolineRx out skipReturn origInstr
      (origAddr + BitVec.ofNat 64 (i * cInstrSize)) (i == total - 1)

def emitReturn (trampolineRx origReturnAddr : Ptr) : VecSpan × Bool → Option VecSpan :=
  fun (out, skipReturn) =>
    if skipReturn then some out
    else (emitBranch true trampolineRx out origReturnAddr false).map Prod.snd

section

variable {ρ : Type} {mRx origAddr returnTo : Ptr} {count total : ℕ} {effect : Effect ρ mRx count}

/-- The code for the words from an index on, and the return behind it. -/
theorem follows_relocated (aligned : mRx.toNat % 4 = 0) (whole : origAddr.toNat % 4 = 0)
    (returns : returnTo.toNat % 4 = 0) {words : List Instr} {i : ℕ} {out final : VecSpan}
    (fits : out.Fits) (near : out.mData.length ≤ 2 ^ 18) (rest : total = i + words.length)
    (known : ∀ word ∈ words, relocatable (A64.Instr.decode word) = true)
    (made : ((words.zipIdx i).foldlM (relocateStep mRx origAddr total) (out, false)).bind
      (emitReturn mRx returnTo) = some final) :
    Grows out final ∧ (final.Spare → ∀ data, Agrees out.mSize final data → data.length ≤ count →
      ∃ start, start 0 = calcCurRxAddr mRx out ∧
        Follows effect words (origAddr + BitVec.ofNat 64 (4 * i)) returnTo data start) := by
  induction words generalizing i out with
  | nil =>
    obtain ⟨result, emitted, rfl⟩ := Option.map_eq_some_iff.mp made
    obtain ⟨grows, -, -, emits⟩ := emits_branch fits aligned returns near emitted
    refine ⟨grows, ?_⟩
    intro spare data agrees _
    refine ⟨fun _ => calcCurRxAddr mRx out, rfl, ?_⟩
    intro j c exit _ _ loaded ran
    rw [List.drop_nil] at ran
    obtain rfl := Option.some.inj ran
    obtain ⟨n, t, ran, scratch, rfl⟩ := emits spare data
      { c.toState with pc := calcCurRxAddr mRx out } agrees rfl loaded
    have reaches : Core.Reaches effect { c with pc := calcCurRxAddr mRx out } _ :=
      Core.reaches_of_steps ran
    exact ⟨_, reaches, scratch, rfl⟩
  | cons word words ih =>
    rw [List.zipIdx_cons, List.foldlM_cons] at made
    obtain ⟨last, folded, returned⟩ := Option.bind_eq_some_iff.mp made
    obtain ⟨⟨next, skip⟩, relocated, folded⟩ := Option.bind_eq_some_iff.mp folded
    have here : origAddr + BitVec.ofNat 64 (i * cInstrSize) =
        origAddr + BitVec.ofNat 64 (4 * i) := by rw [Nat.mul_comm, cInstrSize]
    have place : (origAddr + BitVec.ofNat 64 (4 * i)).toNat % 4 = 0 := by
      rw [BitVec.toNat_add, BitVec.toNat_ofNat]
      omega
    rw [relocateStep, here] at relocated
    have carried : Grows out next ∧ (next.Spare → CarriesAll effect word _ out next) ∧
        Skips word (i == total - 1) false skip :=
      carries_relocate fits aligned near place (known word List.mem_cons_self) relocated
    obtain ⟨grows, carries, skips⟩ := carried
    rcases skips with ⟨rfl, -⟩ | ⟨isLast, rfl, imm, decoded⟩
    · obtain ⟨more, follows⟩ := ih grows.fits (grows.length.symm ▸ near)
        (show total = i + 1 + words.length by rw [rest, List.length_cons]; omega)
        (fun word member => known word (List.mem_cons_of_mem _ member))
        (by rw [folded]; exact returned)
      refine ⟨grows.trans more, ?_⟩
      intro spare data agrees short
      obtain ⟨start, first, follows⟩ := follows spare data (agrees.later grows.size) short
      have behind : origAddr + BitVec.ofNat 64 (4 * (i + 1)) =
          origAddr + BitVec.ofNat 64 (4 * i) + 4 := by
        rw [Nat.mul_succ, BitVec.ofNat_add, ← BitVec.add_assoc]
        rfl
      rw [behind] at follows
      refine ⟨startsAt (calcCurRxAddr mRx out) start, rfl, follows_cons short ?_ first follows⟩
      intro c pc loaded
      exact carries (more.spare spare) data c (more.agrees spare agrees) pc loaded
    · obtain rfl : words = [] := by
        rw [beq_iff_eq, rest, List.length_cons] at isLast
        exact List.eq_nil_of_length_eq_zero (by omega)
      obtain rfl := Option.some.inj folded
      obtain rfl := Option.some.inj returned
      refine ⟨grows, ?_⟩
      intro spare data agrees _
      have carried (c : Core ρ) := carries spare data c agrees
      exact ⟨_, rfl, follows_b decoded carried⟩

end

/-- The words of a backup are as far from the address to return to as whole words are. -/
theorem distance_of_made {trampolineRx origAddr origReturnAddr : Ptr} {out next : VecSpan}
    {orig : List Instr}
    (made : makeTrampolineBackup trampolineRx out orig origAddr origReturnAddr = some next) :
    (origAddr - origReturnAddr) % BitVec.ofNat 64 cInstrSize = 0 := by
  by_contra other
  rw [makeTrampolineBackup, if_neg other] at made
  cases made

/-- A backup, if its code and its literals do not meet, does what the original words do. -/
theorem follows_of_made {ρ : Type} {trampolineRx origAddr origReturnAddr : Ptr}
    {data : List Instr} {count : ℕ} (effect : Effect ρ trampolineRx count)
    (short : data.length ≤ count) (aligned : trampolineRx.toNat % 4 = 0)
    (whole : origAddr.toNat % 4 = 0) (near : data.length ≤ 2 ^ 18) {orig : List Instr}
    {out : VecSpan} (known : ∀ word ∈ orig, relocatable (A64.Instr.decode word) = true)
    (made : makeTrampolineBackup trampolineRx ⟨data, 0, data.length⟩ orig origAddr origReturnAddr =
      some out) :
    Grows ⟨data, 0, data.length⟩ out ∧ (out.Spare → ∃ start, start 0 = trampolineRx ∧
      Follows effect orig origAddr origReturnAddr out.mData start) := by
  have distance := distance_of_made made
  have returns : origReturnAddr.toNat % 4 = 0 := by
    rw [← BitVec.toNat_inj, BitVec.toNat_umod, BitVec.toNat_sub] at distance
    change _ % 4 = 0 at distance
    omega
  rw [makeTrampolineBackup, if_pos distance] at made
  have followed : Grows ⟨data, 0, data.length⟩ out ∧ (out.Spare → ∀ code, Agrees 0 out code →
      code.length ≤ count → ∃ start,
        start 0 = calcCurRxAddr trampolineRx ⟨data, 0, data.length⟩ ∧
          Follows effect orig (origAddr + BitVec.ofNat 64 (4 * 0)) origReturnAddr code start) :=
    follows_relocated aligned whole returns ⟨Nat.zero_le _, le_rfl⟩ near (Nat.zero_add _).symm
      known made
  obtain ⟨grows, follows⟩ := followed
  refine ⟨grows, ?_⟩
  intro spare
  obtain ⟨start, first, follows⟩ := follows spare out.mData ⟨rfl, fun _ _ _ => rfl⟩
    (grows.length.le.trans short)
  rw [Nat.mul_zero, BitVec.add_zero] at follows
  exact ⟨start, first.trans (BitVec.add_zero _), follows⟩

end Hakkun.Hook
