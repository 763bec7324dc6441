import Hakkun.Model.Hook.Hook
import Hakkun.Soundness.WriteRo

/-! # The installed state of hooks and blocks

A hook takes itself for installed when the first word that it has saved is not zero, a block when
its offset is not zero. Where a hooked word is zero, or a block is installed at the start of a
module, a successful install leaves the object uninstalled: it can be installed again, which saves
its own instructions, and it is never uninstalled.
-/

namespace Hakkun.Hook

open Ro Machine

/-! ## Instructions through the aliases -/

/-- Bytes from an offset on that are written to the section, or the sections, that they are in. -/
def Within (module : RoModule) (offset : U64) (bytes : ℕ) : Prop :=
  offset.toNat + bytes ≤ module.textBytes ∨
    (offset.toNat + bytes ≤ module.textBytes + module.rodataBytes ∧
      (module.textBytes ≤ offset.toNat ∨
        module.mTextRwMapping.mStart.toNat + module.textBytes =
          module.mRodataRwMapping.mStart.toNat))

instance (module : RoModule) (offset : U64) (bytes : ℕ) : Decidable (Within module offset bytes) :=
  inferInstanceAs (Decidable (_ ∨ _ ∧ (_ ∨ _)))

/-- The checks of `writeRo`. -/
def Accepts (module : RoModule) (offset writeSize : U64) : Prop :=
  module.mTextRwMapping.mStart ≠ 0 ∧ module.mRodataRwMapping.mStart ≠ 0 ∧
    module.inRange offset writeSize = true

instance (module : RoModule) (offset writeSize : U64) :
    Decidable (Accepts module offset writeSize) :=
  inferInstanceAs (Decidable (_ ∧ _ ∧ _))

variable {module : RoModule} {offset : U64} {memory : Memory}

theorem Within.lt (mapped : module.Mapped) {bytes : ℕ} (within : Within module offset bytes) :
    offset.toNat + bytes ≤ module.textBytes + module.rodataBytes ∧ bytes < 2 ^ 64 := by
  have bound := mapped.bound
  simp only [Within, RoModule.textBytes, RoModule.rodataBytes] at within ⊢
  omega

theorem Within.contained (mapped : module.Mapped) {bytes : ℕ}
    (within : Within module offset bytes) :
    module.Contained offset (BitVec.ofNat 64 bytes) ∧
      module.inRange offset (BitVec.ofNat 64 bytes) = true := by
  have size : (BitVec.ofNat 64 bytes).toNat = bytes := by
    rw [BitVec.toNat_ofNat, Nat.mod_eq_of_lt (within.lt mapped).2]
  constructor
  · rw [RoModule.Contained, size]
    exact .inr (.inr within)
  · rw [RoModule.inRange_iff mapped, size]
    have := (within.lt mapped).1
    have bound := mapped.bound
    simp only [RoModule.textBytes, RoModule.rodataBytes] at this ⊢
    omega

/-- A word is its four bytes. -/
theorem append_bytes (word : Instr) :
    ((word >>> 24).setWidth 8 : Byte) ++ ((word >>> 16).setWidth 8 : Byte) ++
      ((word >>> 8).setWidth 8 : Byte) ++ ((word >>> 0).setWidth 8 : Byte) = word := by
  apply BitVec.eq_of_getLsbD_eq
  intro i bound
  simp only [BitVec.getLsbD_append, BitVec.getLsbD_setWidth, BitVec.getLsbD_ushiftRight]
  grind

theorem roByte_of_lt {i : ℕ} (mapped : module.Mapped)
    (inside : offset.toNat + i < module.textBytes + module.rodataBytes) :
    roByte module memory (offset + BitVec.ofNat 64 i) =
      module.byteAt memory (offset.toNat + i) := by
  have bound := mapped.bound
  have sum : (offset + BitVec.ofNat 64 i).toNat = offset.toNat + i := by
    simp only [RoModule.textBytes, RoModule.rodataBytes] at inside
    rw [BitVec.toNat_add, BitVec.toNat_ofNat]
    omega
  rw [roByte, sum, if_pos inside]

/-- Within a section the bytes that are executed are those behind the alias. -/
theorem roByte_of_within {i bytes : ℕ} (mapped : module.Mapped)
    (within : Within module offset bytes) (inside : i < bytes) :
    roByte module memory (offset + BitVec.ofNat 64 i) =
      memory (module.rwPtr offset + BitVec.ofNat 64 i) := by
  obtain ⟨contained, accepted⟩ := within.contained mapped
  obtain ⟨fits, small⟩ := within.lt mapped
  have size : (BitVec.ofNat 64 bytes).toNat = bytes := by
    rw [BitVec.toNat_ofNat, Nat.mod_eq_of_lt small]
  have there : offset.toNat + i < module.textBytes + module.rodataBytes := by omega
  rw [roByte_of_lt mapped there, RoModule.byteAt]
  congr 1
  rw [← BitVec.toNat_inj, RoModule.written_toNat mapped accepted contained (by omega),
    BitVec.toNat_ofNat, Nat.mod_eq_of_lt (RoModule.rwAddress_lt mapped there)]

/-- The bytes of an instruction that is read. -/
theorem byte_readInstr (module : RoModule) (memory : Memory) (offset : U64) {j : ℕ}
    (low : j < cInstrSize) :
    ((readInstr module memory offset >>> (8 * j)).setWidth 8 : Byte) =
      roByte module memory (offset + BitVec.ofNat 64 j) := by
  have cases_ : j = 0 ∨ j = 1 ∨ j = 2 ∨ j = 3 := by
    rw [cInstrSize] at low
    omega
  apply BitVec.eq_of_getLsbD_eq
  intro i bound
  rw [readInstr, BitVec.getLsbD_setWidth, BitVec.getLsbD_ushiftRight]
  simp only [BitVec.getLsbD_append]
  rcases cases_ with rfl | rfl | rfl | rfl <;> grind

/-- The bytes of instructions that are read are those that are there. -/
theorem instrByte_readInstrs (module : RoModule) (memory : Memory) (offset : U64) {n k : ℕ}
    (inside : k < n * cInstrSize) :
    instrByte (readInstrs module memory offset n) k =
      roByte module memory (offset + BitVec.ofNat 64 k) := by
  have word : k / cInstrSize < n := (Nat.div_lt_iff_lt_mul (by decide)).mpr inside
  have there : (readInstrs module memory offset n).getD (k / cInstrSize) 0 =
      readInstr module memory (offset + BitVec.ofNat 64 (k / cInstrSize * cInstrSize)) := by
    simp [readInstrs, word]
  rw [instrByte, there, byte_readInstr _ _ _ (Nat.mod_lt _ (by decide)), BitVec.add_assoc,
    ← BitVec.ofNat_add, Nat.div_add_mod']

/-- Instructions whose bytes are there are read. -/
theorem readInstrs_of_bytes {instrs : List Instr}
    (bytes : ∀ k < instrs.length * cInstrSize,
      roByte module memory (offset + BitVec.ofNat 64 k) = instrByte instrs k) :
    readInstrs module memory offset instrs.length = instrs := by
  apply List.ext_getElem
  · rw [readInstrs, List.length_map, List.length_range]
  intro w _ inside
  have byte (j : ℕ) (low : j < cInstrSize) :
      roByte module memory (offset + BitVec.ofNat 64 (w * cInstrSize + j)) =
        ((instrs[w] >>> (8 * j)).setWidth 8 : Byte) := by
    have reached : w * cInstrSize + j < instrs.length * cInstrSize := by
      have : (w + 1) * cInstrSize ≤ instrs.length * cInstrSize := Nat.mul_le_mul_right _ inside
      rw [Nat.succ_mul] at this
      omega
    rw [bytes _ reached, instrByte, Nat.mul_comm w, Nat.mul_add_div (by decide),
      Nat.div_eq_of_lt low, Nat.mul_add_mod, Nat.mod_eq_of_lt low, Nat.add_zero,
      List.getD_eq_getElem?_getD, List.getElem?_eq_getElem inside, Option.getD_some]
  simp only [readInstrs, List.getElem_map, List.getElem_range, readInstr]
  have at_ (j : ℕ) : offset + BitVec.ofNat 64 (w * cInstrSize) + BitVec.ofNat 64 j =
      offset + BitVec.ofNat 64 (w * cInstrSize + j) := by
    rw [BitVec.add_assoc, BitVec.ofNat_add]
  have three := at_ 3
  have two := at_ 2
  have one := at_ 1
  have zero := at_ 0
  simp only [BitVec.ofNat_eq_ofNat] at three two one zero ⊢
  rw [three, two, one, zero, byte 3 (by decide), byte 2 (by decide), byte 1 (by decide),
    byte 0 (by decide)]
  exact append_bytes _

/-- Instructions that are written within the sections are read back. -/
theorem writeInstrs_of_within (memory : Memory) (mapped : module.Mapped) {instrs : List Instr}
    (within : Within module offset (instrs.length * cInstrSize)) :
    ∃ after, writeInstrs module memory offset instrs = (.ok (), after) ∧
      readInstrs module after offset instrs.length = instrs := by
  obtain ⟨contained, accepted⟩ := within.contained mapped
  obtain ⟨fits, small⟩ := within.lt mapped
  have size : (BitVec.ofNat 64 (instrs.length * cInstrSize)).toNat =
      instrs.length * cInstrSize := by
    rw [BitVec.toNat_ofNat, Nat.mod_eq_of_lt small]
  refine ⟨memcpy memory (module.rwPtr offset) (instrByte instrs)
    (BitVec.ofNat 64 (instrs.length * cInstrSize)), ?_, ?_⟩
  · rw [writeInstrs, RoModule.writeRo, if_neg mapped.textMapped, if_neg mapped.rodataMapped,
      accepted]
    rfl
  apply readInstrs_of_bytes
  intro k inside
  rw [roByte_of_lt mapped (by omega),
    RoModule.byteAt_memcpy mapped accepted contained _ _ (by omega), size, if_pos (by omega),
    Nat.add_sub_cancel_left]

/-! ## Hooks -/

/-- A place of a module and the instructions that were there. -/
structure Place where
  module : RoModule
  offset : U64
  words : List Instr

/-- The instructions are there again. -/
def Restored (memory : Memory) (place : Place) : Prop :=
  readInstrs place.module memory place.offset place.words.length = place.words

/-- What the uninstall of an object with saved instructions needs. -/
structure Place.Saved (place : Place) (mModule : Option RoModule) (mOffset : U64)
    (mOrigInstrs : List Instr) : Prop where
  module : mModule = some place.module
  offset : mOffset = place.offset
  words : mOrigInstrs = place.words
  mapped : place.module.Mapped
  within : Within place.module place.offset (place.words.length * cInstrSize)

theorem length_readInstrs (n : ℕ) : (readInstrs module memory offset n).length = n := by
  rw [readInstrs, List.length_map, List.length_range]

/-- A write fails and changes nothing, or it is accepted. -/
theorem writeInstrs_cases (module : RoModule) (offset : U64) (memory : Memory)
    (instrs : List Instr) :
    (∃ rc, writeInstrs module memory offset instrs = (.error rc, memory)) ∨
      (Accepts module offset (BitVec.ofNat 64 (instrs.length * cInstrSize)) ∧
        ∃ after, writeInstrs module memory offset instrs = (.ok (), after)) := by
  rw [writeInstrs, RoModule.writeRo]
  split_ifs with text rodata range
  · exact .inl ⟨_, rfl⟩
  · exact .inl ⟨_, rfl⟩
  · exact .inl ⟨_, rfl⟩
  · rw [Bool.not_eq_true, Bool.not_eq_false'] at range
    exact .inr ⟨⟨text, rodata, range⟩, _, rfl⟩

/-- A successful write was accepted. -/
theorem accepts_of_writeInstrs {instrs : List Instr} {after : Memory}
    (succeeded : writeInstrs module memory offset instrs = (.ok (), after)) :
    Accepts module offset (BitVec.ofNat 64 (instrs.length * cInstrSize)) := by
  rcases writeInstrs_cases module offset memory instrs with ⟨rc, failed⟩ | ⟨accepted, -⟩
  · rw [failed] at succeeded
    cases succeeded
  · exact accepted

/-- The saved instructions are written back. -/
theorem Place.Saved.restores {place : Place} {mModule : Option RoModule} {mOffset : U64}
    {mOrigInstrs : List Instr} (saved : place.Saved mModule mOffset mOrigInstrs)
    (memory : Memory) :
    ∃ after, writeInstrs place.module memory mOffset mOrigInstrs = (.ok (), after) ∧
      Restored after place := by
  rw [saved.offset, saved.words]
  exact writeInstrs_of_within memory saved.mapped saved.within

namespace HookNInstr

variable {N : ℕ}

/-- The instructions that an install replaces, and those that it saves. -/
def place (N : ℕ) (memory : Memory) (request : Request) : Place :=
  ⟨request.module, request.offset,
    readInstrs request.module memory request.offset (max N request.instrs.length)⟩

/-- An install that is accepted is that of at most `N` instructions at a place that all `N` can be
written to, and the first word there is not zero. -/
def Careful (N : ℕ) (memory : Memory) (request : Request) : Prop :=
  Accepts request.module request.offset
      (BitVec.ofNat 64 (request.instrs.length * cInstrSize)) →
    request.module.Mapped ∧ request.instrs.length ≤ N ∧
      Within request.module request.offset (N * cInstrSize) ∧
      (readInstrs request.module memory request.offset N).headD 0 ≠ 0

/-- What an installed hook knows. -/
def Knows (hook : HookNInstr) (place : Place) : Prop :=
  place.Saved hook.mModule hook.mOffset hook.mOrigInstrs ∧ place.words.headD 0 ≠ 0

theorem isInstalled_iff (hook : HookNInstr) :
    hook.isInstalled = true ↔ hook.mOrigInstrs.headD 0 ≠ 0 := bne_iff_ne

theorem isInstalled_cleared (N : ℕ) : (cleared N).isInstalled = false := by
  cases N <;> rfl

theorem sound (N : ℕ) : (installer N).Sound (place N) Restored (Careful N) Knows where
  installed := by
    rintro hook place ⟨saved, first⟩
    apply (isInstalled_iff hook).mpr
    rwa [saved.words]
  again := by
    intro hook memory request installed
    exact if_pos installed
  never := by
    intro hook memory absent
    change (if !hook.isInstalled then _ else _) = _
    rw [show hook.isInstalled = false from absent]
    rfl
  install := by
    intro hook memory request result next after absent careful called
    change installAtOffset N hook memory request = _ at called
    rw [installAtOffset, show hook.isInstalled = false from absent] at called
    cases wrote : writeInstrs request.module memory request.offset request.instrs with
    | mk outcome written =>
      simp only [wrote, Bool.false_eq_true, if_false] at called
      cases outcome with
      | error rc =>
        cases called
        exact isInstalled_cleared N
      | ok =>
        cases called
        obtain ⟨mapped, few, within, first⟩ := careful (accepts_of_writeInstrs wrote)
        have words : max N request.instrs.length = N := max_eq_left few
        refine ⟨⟨rfl, rfl, ?_, mapped, ?_⟩, ?_⟩
        · rw [place, words]
        · rwa [place, length_readInstrs, words]
        · rwa [place, words]
  uninstall := by
    rintro hook place memory ⟨saved, first⟩
    obtain ⟨after, wrote, restored⟩ := saved.restores memory
    have installed : hook.isInstalled = true := by
      apply (isInstalled_iff hook).mpr
      rwa [saved.words]
    refine ⟨cleared N, after, ?_, restored, isInstalled_cleared N⟩
    change uninstall N hook memory = _
    rw [uninstall, installed, saved.module]
    simp only [Bool.not_true, Bool.false_eq_true, if_false, wrote]

end HookNInstr

namespace AsmBlock

variable {NumInstrs : ℕ}

/-- The instructions that an install replaces. -/
def place (NumInstrs : ℕ) (memory : Memory) (request : Request) : Place :=
  ⟨request.module, request.offset, readInstrs request.module memory request.offset NumInstrs⟩

/-- An install that is accepted is not at the start of the module, at a place that the block can be
written to. -/
def Careful (NumInstrs : ℕ) (request : Request) : Prop :=
  Accepts request.module request.offset (BitVec.ofNat 64 (NumInstrs * cInstrSize)) →
    request.module.Mapped ∧ Within request.module request.offset (NumInstrs * cInstrSize) ∧
      request.offset ≠ 0

/-- What an installed block knows. -/
def Knows (block : AsmBlock NumInstrs) (place : Place) : Prop :=
  place.Saved block.mModule block.mOffset block.mOrigInstrs ∧ place.offset ≠ 0

theorem isInstalled_iff (block : AsmBlock NumInstrs) :
    block.isInstalled = true ↔ block.mOffset ≠ 0 := bne_iff_ne

theorem sound (NumInstrs : ℕ) :
    (installer NumInstrs).Sound (place NumInstrs) Restored (fun _ => Careful NumInstrs) Knows where
  installed := by
    rintro block place ⟨saved, away⟩
    apply (isInstalled_iff block).mpr
    rwa [saved.offset]
  again := by
    intro block memory request installed
    exact if_pos installed
  never := by
    intro block memory absent
    change (if !block.isInstalled then _ else _) = _
    rw [show block.isInstalled = false from absent]
    rfl
  install := by
    intro block memory request result next after absent careful called
    change tryInstallAtOffset block memory request = _ at called
    rw [tryInstallAtOffset, show block.isInstalled = false from absent] at called
    cases wrote : writeInstrs request.module memory request.offset (block.instrs request) with
    | mk outcome written =>
      simp only [wrote, Bool.false_eq_true, if_false] at called
      cases outcome with
      | error rc =>
        cases called
        exact absent
      | ok =>
        cases called
        have accepted := accepts_of_writeInstrs wrote
        rw [instrs, block.assemble_length] at accepted
        obtain ⟨mapped, within, away⟩ := careful accepted
        refine ⟨⟨rfl, rfl, rfl, mapped, ?_⟩, away⟩
        rwa [place, length_readInstrs]
  uninstall := by
    rintro block place memory ⟨saved, away⟩
    obtain ⟨after, wrote, restored⟩ := saved.restores memory
    have installed : block.isInstalled = true := by
      apply (isInstalled_iff block).mpr
      rwa [saved.offset]
    refine ⟨{ block with mOffset := 0, mModule := none }, after, ?_, restored, rfl⟩
    change uninstall block memory = _
    rw [uninstall, installed, saved.module]
    simp only [Bool.not_true, Bool.false_eq_true, if_false, wrote]

end AsmBlock

/-! ## Runs -/

/-- In every run whose accepted installs are careful, hooks and blocks know whether they are
installed: they refuse what does not fit, and an uninstall restores what the install replaced. -/
theorem behaves_of_careful (N : ℕ) (memory : Memory) (block : AsmBlock N)
    (fresh : block.mOffset = 0) :
    (∀ (events : List (Installer.Event Memory HookNInstr.Request))
        (state : Installer.State HookNInstr Memory Place),
      RunMeets ((HookNInstr.installer N).step (HookNInstr.place N))
          ((HookNInstr.installer N).OnInstall (HookNInstr.Careful N))
          ⟨HookNInstr.cleared N, memory, none⟩ events →
        run ((HookNInstr.installer N).step (HookNInstr.place N))
            ⟨HookNInstr.cleared N, memory, none⟩ events = some state →
          (HookNInstr.installer N).Behaves Restored state) ∧
      ∀ (events : List (Installer.Event Memory AsmBlock.Request))
        (state : Installer.State (AsmBlock N) Memory Place),
        RunMeets ((AsmBlock.installer N).step (AsmBlock.place N))
            ((AsmBlock.installer N).OnInstall fun _ => AsmBlock.Careful N)
            ⟨block, memory, none⟩ events →
          run ((AsmBlock.installer N).step (AsmBlock.place N)) ⟨block, memory, none⟩ events =
              some state →
            (AsmBlock.installer N).Behaves Restored state := by
  constructor
  · intro events state meets ran
    exact (HookNInstr.sound N).behaves_of_run (HookNInstr.isInstalled_cleared N) meets ran
  · intro events state meets ran
    apply (AsmBlock.sound N).behaves_of_run _ meets ran
    exact bne_eq_false_iff_eq.mpr fresh

/-- A `ret`, as a hook's instruction and as a block. -/
def retRequest : HookNInstr.Request := ⟨RoModule.twoPages, 0x10, [0xd65f03c0]⟩

def retBlock : AsmBlock 1 where
  assemble _ := [0xd65f03c0]
  assemble_length _ := rfl

theorem behaves_ret :
    (∃ state, run ((HookNInstr.installer 1).step (HookNInstr.place 1))
        ⟨HookNInstr.cleared 1, fun _ => 1, none⟩ [.install retRequest] = some state ∧
      (HookNInstr.installer 1).Behaves Restored state) ∧
    ∃ state, run ((AsmBlock.installer 1).step (AsmBlock.place 1)) ⟨retBlock, fun _ => 0, none⟩
        [.install ⟨RoModule.twoPages, 0x10⟩] = some state ∧
      (AsmBlock.installer 1).Behaves Restored state := by
  have mapped := RoModule.mapped_twoPages
  constructor
  · refine ⟨_, rfl, (behaves_of_careful 1 (fun _ => 1) retBlock rfl).1 [.install retRequest] _
      ⟨?_, ?_⟩ rfl⟩
    · exact fun _ _ => ⟨mapped, le_rfl, by decide, by decide⟩
    · exact fun _ _ => trivial
  · refine ⟨_, rfl, (behaves_of_careful 1 (fun _ => 0) retBlock rfl).2
      [.install ⟨RoModule.twoPages, 0x10⟩] _ ⟨?_, ?_⟩ rfl⟩
    · exact fun _ _ => ⟨mapped, by decide, by decide⟩
    · exact fun _ _ => trivial

/-- A hook on a word of zero, and a block at the start of a module, do not know of a successful
install. -/
theorem not_behaves :
    (∃ state, run ((HookNInstr.installer 1).step (HookNInstr.place 1))
        ⟨HookNInstr.cleared 1, fun _ => 0, none⟩ [.install retRequest] = some state ∧
      state.replaced.isSome = true ∧ ¬ (HookNInstr.installer 1).Behaves Restored state) ∧
    ∃ state, run ((AsmBlock.installer 1).step (AsmBlock.place 1)) ⟨retBlock, fun _ => 1, none⟩
        [.install ⟨RoModule.twoPages, 0⟩] = some state ∧
      state.replaced.isSome = true ∧ ¬ (AsmBlock.installer 1).Behaves Restored state := by
  constructor
  · refine ⟨_, rfl, by decide, ?_⟩
    rintro ⟨installed, -⟩
    exact absurd installed (by decide)
  · refine ⟨_, rfl, by decide, ?_⟩
    rintro ⟨installed, -⟩
    exact absurd installed (by decide)

end Hakkun.Hook
