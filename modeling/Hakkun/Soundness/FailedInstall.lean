import Hakkun.Model.Hook.Trampoline
import Hakkun.Soundness.InstalledState

/-! # Installs that fail

A trampoline makes its backup before it is known whether the hook can be installed, so an install
that is refused has already replaced it: a second install of an installed hook makes a backup of the
hook's own instructions. Memory is never changed, and the saved instructions are cleared, which
loses them only where an installed hook takes itself for uninstalled.
-/

namespace Hakkun.Hook

open Ro

/-- Memory, the saved instructions and the installed state are what they were. -/
structure Unchanged (hook : HookNInstr) (memory : Memory) (hookAfter : HookNInstr)
    (memoryAfter : Memory) : Prop where
  memory : memoryAfter = memory
  saved : hookAfter.mOrigInstrs = hook.mOrigInstrs
  installed : hookAfter.isInstalled = hook.isInstalled

/-- A failed install changes nothing. -/
def Replace.FailsClean (N : ℕ) (mFunc : Ptr) (hook : HookNInstr) (memory : Memory)
    (module : RoModule) (offset : U64) : Prop :=
  ∀ rc hookAfter memoryAfter,
    Replace.installAtOffset N mFunc hook memory module offset =
        some (.error rc, hookAfter, memoryAfter) →
      Unchanged hook memory hookAfter memoryAfter

def Trampoline.FailsClean (N : ℕ) (target : Ptr) (before : Trampoline.Left) (module : RoModule)
    (offset : U64) : Prop :=
  ∀ rc after, Trampoline.installAtOffset N target before module offset = some (.error rc, after) →
    Unchanged before.hook before.memory after.hook after.memory ∧ after.backup = before.backup

/-- A hook that is installed or has no saved instructions. -/
def HookNInstr.Consistent (N : ℕ) (hook : HookNInstr) : Prop :=
  hook.isInstalled = true ∨ hook.mOrigInstrs = List.replicate N 0

/-- The hook has nothing to lose, or the module accepts what is written. -/
def Replace.Harmless (N : ℕ) (mFunc : Ptr) (hook : HookNInstr) (module : RoModule)
    (offset : U64) : Prop :=
  hook.Consistent N ∨
    ∀ instrs, hookInstrs N (module.mTextRange.mStart + offset) mFunc = some instrs →
      Accepts module offset (BitVec.ofNat 64 (instrs.length * cInstrSize))

/-- The hook is not installed and the module accepts what is written, or the hook has nothing to
lose and the backup is already the one of what is in memory. -/
def Trampoline.Harmless (N : ℕ) (target : Ptr) (before : Trampoline.Left) (module : RoModule)
    (offset : U64) : Prop :=
  ∀ instrs made, hookInstrs N (module.mTextRange.mStart + offset) target = some instrs →
    before.backup.make (readInstrs module before.memory offset instrs.length)
        (module.mTextRange.mStart + offset)
        (module.mTextRange.mStart + offset + BitVec.ofNat 64 (instrs.length * cInstrSize)) =
      some made →
      before.hook.isInstalled = false ∧
          Accepts module offset (BitVec.ofNat 64 (instrs.length * cInstrSize)) ∨
        before.hook.Consistent N ∧ made = before.backup

/-! ## The base -/

variable {module : RoModule} {offset : U64} {memory : Memory}

theorem writeInstrs_of_accepts (memory : Memory) {instrs : List Instr}
    (accepted : Accepts module offset (BitVec.ofNat 64 (instrs.length * cInstrSize))) :
    ∃ after, writeInstrs module memory offset instrs = (.ok (), after) := by
  obtain ⟨text, rodata, range⟩ := accepted
  rw [writeInstrs, RoModule.writeRo, if_neg text, if_neg rodata, range]
  exact ⟨_, rfl⟩

namespace HookNInstr

variable {N : ℕ} {hook : HookNInstr} {instrs : List Instr}

/-- An install succeeds when it is not the second one and the module accepts it. -/
theorem installAtOffset_cases (N : ℕ) (hook : HookNInstr) (memory : Memory) (request : Request) :
    (hook.isInstalled = true ∧
        hook.installAtOffset N memory request = (.error "AlreadyInstalled", hook, memory)) ∨
      (hook.isInstalled = false ∧
        ¬ Accepts request.module request.offset
          (BitVec.ofNat 64 (request.instrs.length * cInstrSize)) ∧
        ∃ rc, hook.installAtOffset N memory request = (.error rc, cleared N, memory)) ∨
      (hook.isInstalled = false ∧
        Accepts request.module request.offset
          (BitVec.ofNat 64 (request.instrs.length * cInstrSize)) ∧
        ∃ next after, hook.installAtOffset N memory request = (.ok (), next, after)) := by
  rw [installAtOffset]
  cases installed : hook.isInstalled with
  | true => exact .inl ⟨rfl, rfl⟩
  | false =>
    by_cases accepted : Accepts request.module request.offset
        (BitVec.ofNat 64 (request.instrs.length * cInstrSize))
    · obtain ⟨after, wrote⟩ := writeInstrs_of_accepts memory accepted
      refine .inr (.inr ⟨rfl, accepted, ⟨some request.module, request.offset,
        readInstrs request.module memory request.offset N⟩, after, ?_⟩)
      simp only [Bool.false_eq_true, if_false, wrote]
    · rcases writeInstrs_cases request.module request.offset memory request.instrs with
        ⟨rc, failed⟩ | ⟨accepts, -⟩
      · refine .inr (.inl ⟨rfl, accepted, rc, ?_⟩)
        simp only [Bool.false_eq_true, if_false, failed]
      · exact absurd accepts accepted

/-- A refused install changes nothing of a hook that has nothing to lose. -/
theorem unchanged_cleared_iff (absent : hook.isInstalled = false) :
    Unchanged hook memory (cleared N) memory ↔ hook.Consistent N := by
  constructor
  · rintro ⟨-, saved, -⟩
    exact .inr saved.symm
  · rintro (installed | saved)
    · rw [installed] at absent
      cases absent
    · exact ⟨rfl, saved.symm, by rw [isInstalled_cleared, absent]⟩

end HookNInstr

/-! ## Replacements and trampolines -/

theorem Unchanged.refl (hook : HookNInstr) (memory : Memory) : Unchanged hook memory hook memory :=
  ⟨rfl, rfl, rfl⟩

theorem Replace.failsClean_iff (N : ℕ) (mFunc : Ptr) (hook : HookNInstr) (memory : Memory)
    (module : RoModule) (offset : U64) :
    Replace.FailsClean N mFunc hook memory module offset ↔
      Replace.Harmless N mFunc hook module offset := by
  rw [Replace.FailsClean, Replace.Harmless, Replace.installAtOffset]
  cases installed : hook.isInstalled with
  | true =>
    refine iff_of_true ?_ (.inl (.inl installed))
    rintro rc _ _ ⟨⟩
    exact .refl hook memory
  | false =>
    simp only [Bool.false_eq_true, if_false]
    cases written : hookInstrs N (module.mTextRange.mStart + offset) mFunc with
    | none =>
      refine iff_of_true ?_ (.inr fun _ none => by cases none)
      rintro rc _ _ ⟨⟩
    | some instrs =>
      have absent := installed
      rcases HookNInstr.installAtOffset_cases N hook memory ⟨module, offset, instrs⟩ with
        ⟨again, -⟩ | ⟨-, refused, rc, failed⟩ | ⟨-, accepted, next, after, succeeded⟩
      · rw [installed] at again
        cases again
      · rw [Option.map_some, failed]
        constructor
        · intro clean
          exact .inl ((HookNInstr.unchanged_cleared_iff absent).mp (clean rc _ _ rfl))
        · rintro (consistent | accepts)
          · rintro _ _ _ ⟨⟩
            exact (HookNInstr.unchanged_cleared_iff absent).mpr consistent
          · exact absurd (accepts instrs rfl) refused
      · rw [Option.map_some, succeeded]
        refine iff_of_true ?_ (.inr ?_)
        · rintro rc _ _ ⟨⟩
        · rintro _ ⟨⟩
          exact accepted

theorem Trampoline.failsClean_iff (N : ℕ) (target : Ptr) (before : Trampoline.Left)
    (module : RoModule) (offset : U64) :
    Trampoline.FailsClean N target before module offset ↔
      Trampoline.Harmless N target before module offset := by
  rw [Trampoline.FailsClean, Trampoline.Harmless, Trampoline.installAtOffset]
  dsimp only
  cases written : hookInstrs N (module.mTextRange.mStart + offset) target with
  | none =>
    refine iff_of_true ?_ (fun _ _ none => by cases none)
    rintro rc _ ⟨⟩
  | some instrs =>
    rw [Option.bind_some]
    cases made : before.backup.make (readInstrs module before.memory offset instrs.length)
        (module.mTextRange.mStart + offset)
        (module.mTextRange.mStart + offset + BitVec.ofNat 64 (instrs.length * cInstrSize)) with
    | none =>
      refine iff_of_true ?_ ?_
      · rintro rc _ ⟨⟩
      · rintro _ _ ⟨⟩ aborted
        rw [made] at aborted
        cases aborted
    | some backup =>
      rw [Option.map_some]
      rcases HookNInstr.installAtOffset_cases N before.hook before.memory
          ⟨module, offset, instrs⟩ with
        ⟨installed, failed⟩ | ⟨absent, refused, rc, failed⟩ |
          ⟨absent, accepted, next, after, succeeded⟩
      · rw [failed]
        constructor
        · intro clean
          rintro _ _ ⟨⟩ same
          obtain rfl := Option.some.inj (made.symm.trans same)
          exact .inr ⟨.inl installed, (clean _ _ rfl).2⟩
        · intro harmless
          rintro _ _ ⟨⟩
          rcases harmless instrs backup rfl made with ⟨absent, -⟩ | ⟨-, same⟩
          · rw [installed] at absent
            cases absent
          · exact ⟨.refl .., same⟩
      · rw [failed]
        constructor
        · intro clean
          rintro _ _ ⟨⟩ same
          obtain rfl := Option.some.inj (made.symm.trans same)
          obtain ⟨unchanged, kept⟩ := clean _ _ rfl
          exact .inr ⟨(HookNInstr.unchanged_cleared_iff absent).mp unchanged, kept⟩
        · intro harmless
          rintro _ _ ⟨⟩
          rcases harmless instrs backup rfl made with ⟨-, accepts⟩ | ⟨consistent, same⟩
          · exact absurd accepts refused
          · exact ⟨(HookNInstr.unchanged_cleared_iff absent).mpr consistent, same⟩
      · rw [succeeded]
        refine iff_of_true ?_ ?_
        · rintro rc _ ⟨⟩
        · rintro _ _ ⟨⟩ -
          exact .inl ⟨absent, accepted⟩

/-- A hook of one instruction at `0x1010` and its backup at `0x9000`. -/
def Trampoline.Left.fresh : Trampoline.Left where
  hook := HookNInstr.cleared 1
  memory _ := 1
  backup := ⟨[0, 0], 0x9000⟩

end Hakkun.Hook
