import Hakkun.Soundness.BackupRoom
import Hakkun.Soundness.HookSystem

/-! # Hooks are transparent

While hooks compose, the words of each one lead to its handler, and the backup of a trampoline does
what the words did that were at its site before there were any hooks, whatever was installed and
uninstalled around it.
-/

namespace Hakkun.Hook

open Ro Machine

/-! ## The length of a buffer -/

/-- A buffer of a length, if there is one. -/
def Sized {α : Type*} (n : ℕ) (buffer : α → VecSpan) (next : Option α) : Prop :=
  ∀ result ∈ next, (buffer result).mData.length = n

namespace Sized

variable {α β : Type*} {n : ℕ} {buffer : α → VecSpan} {next : Option α} {out : VecSpan}

theorem none : Sized n buffer none := fun _ member => nomatch member

theorem some {result : α} (length : (buffer result).mData.length = n) :
    Sized n buffer (some result) := by
  rintro _ ⟨⟩
  exact length

theorem bind {f : α → Option β} {other : β → VecSpan} (first : Sized n buffer next)
    (second : ∀ result, (buffer result).mData.length = n → Sized n other (f result)) :
    Sized n other (next.bind f) := by
  intro last member
  obtain ⟨result, one, two⟩ := Option.bind_eq_some_iff.mp member
  exact second result (first result one) last two

theorem map {f : α → β} {other : β → VecSpan} (first : Sized n buffer next)
    (second : ∀ result, (buffer result).mData.length = n → (other (f result)).mData.length = n) :
    Sized n other (next.map f) := by
  rw [Option.map_eq_bind]
  exact first.bind fun result length => some (second result length)

theorem map_any {γ : Type*} {f : γ → β} {other : β → VecSpan} {result : Option γ}
    (each : ∀ c, (other (f c)).mData.length = n) : Sized n other (result.map f) := by
  cases result with
  | none => exact none
  | some c => exact some (each c)

theorem add (length : out.mData.length = n) (word : Instr) : Sized n id (out.add word) := by
  rw [VecSpan.add]
  split
  · exact some (List.length_set.trans length)
  · exact none

theorem emit (length : out.mData.length = n) (word : Option Instr) :
    Sized n id (emit out word) := by
  cases word with
  | none => exact none
  | some word => exact add length word

theorem foldlM {f : α → β → Option α}
    (one : ∀ result b, (buffer result).mData.length = n → Sized n buffer (f result b))
    {result : α} (length : (buffer result).mData.length = n) (l : List β) :
    Sized n buffer (l.foldlM f result) := by
  induction l generalizing result with
  | nil => exact some length
  | cons b l ih =>
    rw [List.foldlM_cons]
    exact (one result b length).bind fun _ => ih

variable {mRx : Ptr} {canUseInstrAsData : Bool}

theorem emitMovImmediate64 (length : out.mData.length = n) (reg : IRegType) (value : U64) :
    Sized n Prod.snd (emitMovImmediate64 canUseInstrAsData mRx out reg value) := by
  rw [Hook.emitMovImmediate64]
  dsimp only
  split
  · exact (emit length _).map fun _ => id
  split
  · refine (emit length _).bind fun middle kept => ?_
    split
    · exact (emit kept _).map fun _ => id
    · exact some kept
  split
  · split
    · refine (emit length _).map fun middle kept => ?_
      dsimp only
      rw [List.length_set, List.length_set]
      exact kept
    · exact none
  · have start : Sized n id (if (List.range 4).any fun i =>
        part16 value i == part16 (calcCurRxAddr mRx out) i then
          Hook.emit out (assemble .Adr { rd := reg.setWidth 64, imm := calcCurRxAddr mRx out }
            (calcCurRxAddr mRx out))
        else Option.some out) := by
      split
      · exact emit length _
      · exact some length
    have rest (middle : VecSpan) (kept : middle.mData.length = n) :
        Sized n id (emitMovk middle (reg.setWidth 64) value (calcCurRxAddr mRx out)) := by
      apply foldlM _ kept
      intro middle i kept
      split
      · exact some kept
      · exact emit kept _
    exact (start.bind rest).map fun _ => id

theorem emitBranch (length : out.mData.length = n) (target : Ptr) (link : Bool) :
    Sized n Prod.snd (emitBranch canUseInstrAsData mRx out target link) := by
  rw [Hook.emitBranch]
  dsimp only
  split
  · exact (add length _).map fun _ => id
  · apply (emitMovImmediate64 length IP0 target).bind
    intro result kept
    exact (add kept _).map fun _ => id

theorem relocateConditional (length : out.mData.length = n) (type : IInstrType)
    (rd shiftImm : U64) (addr : Ptr) :
    Sized n id (relocateConditional mRx out type rd shiftImm addr) := by
  rw [Hook.relocateConditional]
  refine (add length 0).bind fun middle kept => ?_
  apply (emitBranch kept addr false).bind
  rintro ⟨count, last⟩ kept
  exact map_any fun instr => List.length_set.trans kept

theorem relocate (length : out.mData.length = n) (skipReturn : Bool) (orig : Instr)
    (origAddr : Ptr) (isLast : Bool) :
    Sized n Prod.fst (relocate mRx out skipReturn orig origAddr isLast) := by
  rw [Hook.relocate]
  split
  · exact (emitMovImmediate64 length _ _).map fun _ => id
  split
  · split
    · exact none
    · exact (emitBranch length _ _).map fun _ => id
  split
  · split
    · exact none
    · exact (relocateConditional length _ _ _ _).map fun _ => id
  split
  · split
    · exact none
    · exact (relocateConditional length _ _ _ _).map fun _ => id
  split
  · split
    · exact none
    · exact (relocateConditional length _ _ _ _).map fun _ => id
  split
  · exact none
  · exact (add length orig).map fun _ => id

theorem makeTrampolineBackup (length : out.mData.length = n) (orig : List Instr)
    (origAddr origReturnAddr : Ptr) :
    Sized n id (makeTrampolineBackup mRx out orig origAddr origReturnAddr) := by
  rw [Hook.makeTrampolineBackup]
  split
  · apply Sized.bind (@foldlM _ _ n Prod.fst _ _ _ length _)
    · rintro ⟨middle, skipReturn⟩ kept
      dsimp only
      split
      · exact some kept
      · exact (emitBranch kept _ _).map fun _ => id
    · rintro ⟨middle, skipReturn⟩ word kept
      exact relocate kept _ _ _ _
  · exact none

end Sized

/-- A backup stays where it is and keeps its size. -/
theorem TrampolineBackup.make_eq_some {before after : TrampolineBackup} {orig : List Instr}
    {origAddr origReturnAddr : Ptr} (made : before.make orig origAddr origReturnAddr = some after) :
    after.getRx = before.getRx ∧ after.instrs.length = before.instrs.length := by
  obtain ⟨out, same, rfl⟩ := Option.map_eq_some_iff.mp made
  exact ⟨rfl, Sized.makeTrampolineBackup rfl orig origAddr origReturnAddr out same⟩

/-! ## Backups that are called -/

/-- A backup at whole words, not larger than the reach of a load of a literal, and with room for
words whose meaning a relocation keeps. -/
structure Callable (backup : TrampolineBackup) (hookAt : Ptr) (orig : List Instr) : Prop where
  aligned : backup.getRx.toNat % 4 = 0
  whole : hookAt.toNat % 4 = 0
  near : backup.instrs.length ≤ 2 ^ 18
  known : ∀ word ∈ orig, relocatable (A64.Instr.decode word) = true
  room : roomFor orig < backup.instrs.length

theorem Callable.follows {before after : TrampolineBackup} {hookAt origReturnAddr : Ptr}
    {orig : List Instr} (callable : Callable after hookAt orig)
    (made : before.make orig hookAt origReturnAddr = some after) {ρ : Type}
    (effect : A64.Effect ρ after.getRx after.instrs.length) :
    ∃ start, start 0 = after.getRx ∧
      Follows effect orig hookAt origReturnAddr after.instrs start := by
  obtain ⟨place, length⟩ := TrampolineBackup.make_eq_some made
  obtain ⟨aligned, whole, near, known, room⟩ := callable
  obtain ⟨out, same, rfl⟩ := Option.map_eq_some_iff.mp made
  dsimp only at length aligned near room effect ⊢
  rw [length] at near room
  exact follows_of_room effect length.ge aligned whole near known room same

/-! ## The words of a hook and those under it -/

/-- A hook is a branch to its handler. -/
theorem hookInstrs_eq_some {N : ℕ} {hookAt target : Ptr} {instrs : List Instr}
    (emitted : hookInstrs N hookAt target = some instrs) :
    instrs = branchWords target hookAt false := by
  obtain ⟨⟨count, out⟩, branch, rfl⟩ := Option.map_eq_some_iff.mp emitted
  rw [emitBranch_eq] at branch
  obtain ⟨next, added, same⟩ := Option.map_eq_some_iff.mp branch
  have start : calcCurRxAddr hookAt { mData := List.replicate N 0, mCapacity := N } = hookAt :=
    BitVec.add_zero _
  cases same
  rw [start] at added
  have room := room_of_addAll (Nat.zero_le N) added
  rw [VecSpan.addAll_eq room (List.length_replicate ..).ge] at added
  cases added
  simp [VecSpan.append]

variable {N : ℕ} {kind : Kind} {site : Site} {hook : HookNInstr} {original found : Memory}

/-- The words that an install overwrote are the original ones. -/
theorem Knows.readInstrs_found (knows : Knows N kind original site hook found) :
    readInstrs site.module found site.offset (words N kind site).length =
      readInstrs site.module original site.offset (words N kind site).length := by
  have length := @length_readInstrs site.module site.offset original (words N kind site).length
  conv_lhs => rw [← length]
  apply readInstrs_of_bytes
  intro k inside
  rw [length] at inside
  have distance : (site.module.rwPtr site.offset + BitVec.ofNat 64 k -
      site.module.rwPtr site.offset).toNat = k :=
    (RoModule.sub_toNat_eq (inside.trans (knows.within.lt knows.mapped).2)).mpr rfl
  have cell : site.module.rwPtr site.offset + BitVec.ofNat 64 k ∈ (patch N kind site).cells := by
    rw [mem_cells, distance]
    exact inside
  rw [instrByte_readInstrs _ _ _ inside, roByte_of_within knows.mapped knows.within inside,
    roByte_of_within knows.mapped knows.within inside, knows.found _ cell]

namespace Hooks

variable {ι : Type} [DecidableEq ι]

section

variable (N : ℕ) (kinds : ι → Kind)

/-- The number of words that a hook overwrites. -/
def overwritten (i : ι) (site : Site) : ℕ := (words N (kinds i) site).length

/-- The address behind the words of a hook. -/
def returnAddr (i : ι) (site : Site) : Ptr :=
  site.getAt + BitVec.ofNat 64 (overwritten N kinds i site * cInstrSize)

/-- The backup of a trampoline was made of what its install found. -/
def Backed (state : Hooks ι) : Prop :=
  ∀ i site target, kinds i = .trampoline target → state.sites i = some site →
    ∃ before : TrampolineBackup,
      before.make (readInstrs site.module (state.found i) site.offset (overwritten N kinds i site))
        site.getAt (returnAddr N kinds i site) = some (state.backups i)

/-- The hooks that are installed lead to their handlers, and the backups of trampolines do what the
original words do. -/
structure Transparent (original : Memory) (state : Hooks ι) : Prop where
  leads : ∀ i site, state.sites i = some site → site.getAt.toNat % 4 = 0 →
    (kinds i).target.toNat % 4 = 0 →
      Transfers (readInstrs site.module state.memory site.offset (overwritten N kinds i site))
        site.getAt (kinds i).target false
  follows : ∀ i site target, kinds i = .trampoline target → state.sites i = some site →
    let orig := readInstrs site.module original site.offset (overwritten N kinds i site)
    Callable (state.backups i) site.getAt orig →
      ∀ (ρ : Type) (effect : A64.Effect ρ (state.backups i).getRx (state.backups i).instrs.length),
        ∃ start, start 0 = (state.backups i).getRx ∧
          Follows effect orig site.getAt (returnAddr N kinds i site) (state.backups i).instrs start

end

variable {kinds : ι → Kind} {state next : Hooks ι} {i : ι}

/-- An install makes a backup of what is in memory; the backups of the other hooks stay. -/
theorem Backed.install (backed : Backed N kinds state)
    (stepped : step N kinds state (.install i site) = some next) : Backed N kinds next := by
  rw [step] at stepped
  split at stepped
  on_goal 2 => cases stepped
  next after called =>
    cases stepped
    intro j there target trampoline present
    dsimp only at present ⊢
    rcases eq_or_ne j i with rfl | different
    · rw [Function.update_self] at present
      obtain rfl := Option.some.inj present
      rw [trampoline] at called
      obtain ⟨instrs, emitted, made⟩ := Option.bind_eq_some_iff.mp called
      obtain ⟨backup, made, same⟩ := Option.map_eq_some_iff.mp made
      have own : words N (kinds j) site = instrs := words_eq (trampoline.symm ▸ emitted)
      have kept : after.backup = backup := (congrArg (fun left => left.2.backup) same).symm
      rw [Function.update_self, Function.update_self, kept, returnAddr, overwritten, own]
      exact ⟨_, made⟩
    · rw [Function.update_of_ne different] at present
      rw [Function.update_of_ne different, Function.update_of_ne different]
      exact backed j there target trampoline present

theorem Backed.uninstall (backed : Backed N kinds state)
    (stepped : step N kinds state (.uninstall i) = some next) : Backed N kinds next := by
  rw [step] at stepped
  split at stepped
  on_goal 2 => cases stepped
  cases stepped
  intro j there target trampoline present
  dsimp only at present ⊢
  rcases eq_or_ne j i with rfl | different
  · rw [Function.update_self] at present
    cases present
  · rw [Function.update_of_ne different] at present
    exact backed j there target trampoline present

omit [DecidableEq ι] in
theorem backed_start (backups : ι → TrampolineBackup) (original : Memory) :
    Backed N kinds (start N backups original) := by
  intro i site target _ present
  cases present

omit [DecidableEq ι] in
/-- Hooks that compose, and whose backups are those of what they found, are transparent. -/
theorem Kept.transparent (kept : Kept N kinds original state) (backed : Backed N kinds state) :
    Transparent N kinds original state where
  leads i site present aligned whole := by
    obtain ⟨instrs, emitted, read⟩ := kept.composes.own i site present
    have own : words N (kinds i) site = instrs := words_eq emitted
    have distance : ((kinds i).target - site.getAt).toNat % 4 = 0 := by
      rw [BitVec.toNat_sub]
      omega
    rw [overwritten, own, read, hookInstrs_eq_some emitted]
    exact transfers_branchWords distance false
  follows i site target trampoline present := by
    intro orig callable ρ effect
    obtain ⟨before, made⟩ := backed i site target trampoline present
    rw [overwritten, (kept.knows i site present).readInstrs_found] at made
    exact callable.follows made effect

/-- In every run of successful calls whose installs write different words and whose uninstalls find
the saved tail intact, the hooks are transparent. -/
theorem transparent_of_intact (kinds : ι → Kind) (backups : ι → TrampolineBackup)
    (original : Memory) (sized : N * cInstrSize < 2 ^ 64) {events : List (Event ι)}
    (meets : RunMeets (step N kinds)
      (fun state event => Apart N kinds state event ∧ Intact N kinds state event)
      (start N backups original) events) {state : Hooks ι}
    (ran : run (step N kinds) (start N backups original) events = some state) :
    Transparent N kinds original state := by
  have kept : Kept N kinds original state ∧ Backed N kinds state := by
    apply run_invariant _ ⟨kept_start backups original, backed_start backups original⟩ meets ran
    rintro source event target ⟨kept, backed⟩ met stepped
    cases event with
    | install i site => exact ⟨kept.install met.1 met.2 stepped, backed.install stepped⟩
    | uninstall i => exact ⟨(kept.uninstall sized met.2 stepped).2, backed.uninstall stepped⟩
  exact kept.1.transparent kept.2

/-- The site of a function, a trampoline of one word there, and its backup. -/
def entry : Site := ⟨RoModule.twoPages, 0x10⟩

def detour (_ : Unit) : Kind := .trampoline 0x5000

def detourBackup (_ : Unit) : TrampolineBackup := ⟨List.replicate 25 0, 0x9000⟩

theorem size_entry : size 1 (detour ()) entry = 1 * cInstrSize := by decide

/-- The trampoline is installed, uninstalled and installed again. -/
theorem transparent_again :
    ∃ state, run (step 1 detour) (start 1 detourBackup fun _ => 1)
        [.install () entry, .uninstall (), .install () entry] = some state ∧
      Transparent 1 detour (fun _ => 1) state ∧
        Callable (state.backups ()) entry.getAt [0x01010101] := by
  have apart (state : Hooks Unit) : Apart 1 detour state (.install () entry) := by
    intro j other different
    exact absurd rfl different
  have within : Within entry.module entry.offset (size 1 (detour ()) entry) := by decide
  have meets : RunMeets (step 1 detour)
      (fun state event => Apart 1 detour state event ∧ Intact 1 detour state event)
      (start 1 detourBackup fun _ => 1) [.install () entry, .uninstall (), .install () entry] := by
    refine ⟨⟨apart _, rfl, RoModule.mapped_twoPages, within⟩, fun first stepped =>
      ⟨⟨trivial, fun site present => ?_⟩, fun second again =>
        ⟨⟨apart _, ?_, RoModule.mapped_twoPages, within⟩, fun _ _ => trivial⟩⟩⟩
    · rw [step_sites stepped] at present
      obtain rfl : entry = site := Option.some.inj present
      exact tailIntact_of_full size_entry
    · rw [step] at again
      split at again <;> cases again
      exact Function.update_self () none first.sites
  refine ⟨_, rfl, transparent_of_intact detour detourBackup (fun _ => 1) (by decide) meets rfl, ?_⟩
  refine ⟨rfl, rfl, by decide, ?_, by decide⟩
  intro word member
  obtain rfl := List.mem_singleton.mp member
  rfl

end Hooks

end Hakkun.Hook
