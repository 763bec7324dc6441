import Hakkun.Model.Hook.InstrUtil
import Hakkun.Soundness.InstalledState

/-! # Branches that are written into a module

The distance of a branch is cut to 32 bits and then to a field of 26, and neither cut is checked: a
branch leads to its target exactly when the distance fits the field. The forms that look the module
up by an address use what they find without asking whether it is null.
-/

namespace Hakkun.Hook

open Ro

/-! ## The branch instruction -/

theorem sdiv_four_toNat {value : U32} (aligned : value.toNat % 4 = 0) :
    (value.sdiv 4).toNat % 2 ^ 26 = value.toNat / 4 % 2 ^ 26 := by
  have bits := value.isLt
  have signed := value.toInt_eq_toNat_cond
  obtain ⟨quarter, exactly⟩ : ∃ quarter : ℤ, value.toInt = 4 * quarter :=
    ⟨value.toInt / 4, by split at signed <;> omega⟩
  have divided : (value.sdiv 4).toInt = quarter := by
    rw [BitVec.toInt_sdiv, exactly, show (4 : U32).toInt = 4 from rfl,
      Int.mul_tdiv_cancel_left _ (by decide)]
    apply Int.bmod_eq_of_le <;> split at signed <;> omega
  have result := (value.sdiv 4).toInt_eq_toNat_cond
  have small := (value.sdiv 4).isLt
  rw [divided] at result
  split at signed <;> split at result <;> omega

theorem makeUnconditionalBranch_toNat (operand : UnconditionalBranchOp) {pc target : Ptr}
    (aligned : (target - pc).toNat % 4 = 0) :
    (makeUnconditionalBranch operand pc target).toNat =
      (target - pc).toNat / 4 % 2 ^ 26 + operand.value.toNat * 2 ^ 26 := by
  have distance : ((target - pc).setWidth 32).toNat = (target - pc).toNat % 2 ^ 32 :=
    BitVec.toNat_setWidth _ _
  have field := sdiv_four_toNat (show ((target - pc).setWidth 32).toNat % 4 = 0 by omega)
  have mask : cImm26Mask.toNat = 2 ^ 26 - 1 := rfl
  have kind : (operand.value <<< 26).toNat = operand.value.toNat * 2 ^ 26 := by
    cases operand <;> rfl
  have small : operand.value.toNat < 2 ^ 6 := by cases operand <;> decide
  rw [makeUnconditionalBranch, makeUnconditionalBranchRelative, BitVec.toNat_or, BitVec.toNat_and,
    mask, Nat.and_two_pow_sub_one_eq_mod, kind, field, distance,
    Math.or_eq_add_of_clear small (by omega)]
  omega

/-- A branch leads as far as the low 28 bits of the distance say. -/
theorem grabBBLAddr_makeUnconditionalBranch (operand : UnconditionalBranchOp) {pc target : Ptr}
    (aligned : (target - pc).toNat % 4 = 0) :
    grabBBLAddr (makeUnconditionalBranch operand pc target) pc =
      pc + ((target - pc).setWidth 28).signExtend 64 := by
  have word := makeUnconditionalBranch_toNat operand aligned
  have field := grab_toNat (makeUnconditionalBranch operand pc target) 0 (show 26 ≤ 32 by decide)
  have offset := signExtend_toNat (show 25 < 32 by decide)
    (show (grab (makeUnconditionalBranch operand pc target) 0 26).toNat < 2 ^ (25 + 1) by omega)
  rw [grabBBLAddr]
  congr 1
  rw [← BitVec.toNat_inj, BitVec.toNat_mul, BitVec.toNat_signExtend, BitVec.toNat_signExtend,
    BitVec.msb_eq_decide, BitVec.msb_eq_decide, BitVec.toNat_setWidth, BitVec.toNat_setWidth,
    BitVec.toNat_setWidth, offset]
  simp only [decide_eq_true_eq, BitVec.toNat_ofNat, cInstrSize]
  generalize (target - pc).toNat = distance at *
  generalize (grab (makeUnconditionalBranch operand pc target) 0 26).toNat = imm at *
  have low : imm = distance / 4 % 2 ^ 26 := by omega
  split_ifs <;> omega

/-- The distance fits the field of a branch. -/
def InReach (pc target : Ptr) : Prop :=
  -(2 ^ 27 : ℤ) ≤ (target - pc).toInt ∧ (target - pc).toInt < 2 ^ 27

instance (pc target : Ptr) : Decidable (InReach pc target) := inferInstanceAs (Decidable (_ ∧ _))

theorem grabBBLAddr_eq_iff (operand : UnconditionalBranchOp) {pc target : Ptr}
    (aligned : (target - pc).toNat % 4 = 0) :
    grabBBLAddr (makeUnconditionalBranch operand pc target) pc = target ↔ InReach pc target := by
  rw [grabBBLAddr_makeUnconditionalBranch operand aligned, InReach,
    ← Math.signExtend_setWidth_eq_iff (show 27 < 64 by decide) (target - pc)]
  constructor
  · intro arrives
    have moved : pc + ((target - pc).setWidth 28).signExtend 64 - pc = target - pc :=
      congrArg (· - pc) arrives
    rwa [BitVec.add_comm, BitVec.add_sub_cancel] at moved
  · intro same
    rw [same, BitVec.add_comm, BitVec.sub_add_cancel]

/-! ## The write -/

/-- A mapped module as the kernel lays it out: whole instructions, and an alias that is not the
section itself. -/
structure Laid (module : RoModule) : Prop extends module.Mapped where
  start : module.mTextRange.mStart.toNat % cInstrSize = 0
  text : module.textBytes % cInstrSize = 0
  rodata : module.rodataBytes % cInstrSize = 0
  rw : module.mRodataRwMapping.mStart.toNat % cInstrSize = 0
  elsewhere : module.mRodataRwMapping.mStart ≠ module.mRodataRange.mStart

/-- A module that is laid out so once it is mapped. -/
def Loaded (module : RoModule) : Prop :=
  module.mTextRwMapping.mStart ≠ 0 → module.mRodataRwMapping.mStart ≠ 0 → Laid module

/-- A write of a branch fails and changes nothing, or the word at its address leads to the
target. -/
def Branches (operand : UnconditionalBranchOp) (module : RoModule) (offset : U64) (target : Ptr) :
    Prop :=
  ∀ memory, match writeUnconditionalBranch operand module memory offset target with
    | (.error _, after) => after = memory
    | (.ok (), after) =>
      grabBBLAddr (readInstr module after offset) (module.mTextRange.mStart + offset) = target

/-- The same of the form that is given an address, which always has a result. -/
def BranchesAtPtr (operand : UnconditionalBranchOp) (sModules : List LoadedModule)
    (addr target : Ptr) : Prop :=
  ∀ memory, match writeUnconditionalBranchAtPtr operand sModules memory addr target with
    | none => False
    | some (.error _, after) => after = memory
    | some (.ok (), after) =>
      ∃ i module, getModuleContaining sModules addr = some i ∧ sModules[i]? = some module ∧
        grabBBLAddr (readInstr module.toRoModule after (addr - module.range.mStart)) addr = target

/-- The write is refused, or it is within the module and the target is in reach. -/
def Reaches (module : RoModule) (offset : U64) (target : Ptr) : Prop :=
  Accepts module offset 4 → offset.toNat + cInstrSize ≤ module.textBytes + module.rodataBytes ∧
    InReach (module.mTextRange.mStart + offset) target

instance (module : RoModule) (offset : U64) (target : Ptr) :
    Decidable (Reaches module offset target) := inferInstanceAs (Decidable (_ → _ ∧ _))

variable {module : RoModule} {offset : U64} {target : Ptr} {operand : UnconditionalBranchOp}

/-- A whole instruction in the module is in one section. -/
theorem Laid.within (laid : Laid module) (aligned : offset.toNat % cInstrSize = 0)
    (inside : offset.toNat + cInstrSize ≤ module.textBytes + module.rodataBytes) :
    Within module offset cInstrSize := by
  have text := laid.text
  simp only [cInstrSize] at *
  rcases le_or_gt (offset.toNat + 4) module.textBytes with text | beyond
  · exact .inl text
  · exact .inr ⟨inside, .inl (by omega)⟩

/-- The only other instruction that `writeRo` accepts is the last one of the address space. -/
theorem Laid.last (laid : Laid module) (aligned : offset.toNat % cInstrSize = 0)
    (accepted : module.inRange offset 4 = true)
    (outside : ¬ offset.toNat + cInstrSize ≤ module.textBytes + module.rodataBytes) :
    module.mTextRange.mStart.toNat + offset.toNat = 2 ^ 64 - 4 ∧
      module.textBytes + module.rodataBytes ≤ offset.toNat := by
  obtain ⟨start, fits⟩ := (RoModule.inRange_iff laid.toMapped offset 4).mp accepted
  have startAligned := laid.start
  have textAligned := laid.text
  have rodataAligned := laid.rodata
  have four : (4 : U64).toNat = 4 := rfl
  simp only [cInstrSize, four] at *
  omega

/-- What the write does to the last instruction of the address space: nothing. -/
theorem Laid.unwritten (laid : Laid module) (memory : Memory) (source : ℕ → Byte) {j : ℕ}
    (low : j < cInstrSize)
    (last : module.mTextRange.mStart.toNat + offset.toNat = 2 ^ 64 - 4)
    (outside : module.textBytes + module.rodataBytes ≤ offset.toNat) :
    roByte module (memcpy memory (module.rwPtr offset) source 4) (offset + BitVec.ofNat 64 j) =
      memory (module.mTextRange.mStart + (offset + BitVec.ofNat 64 j)) := by
  have bound := laid.bound
  have adjacent := laid.adjacent
  have away := laid.elsewhere
  have startAligned := laid.start
  have rwAligned := laid.rw
  have textAligned := laid.text
  have sum : (offset + BitVec.ofNat 64 j).toNat = offset.toNat + j := by
    rw [BitVec.toNat_add, BitVec.toNat_ofNat]
    simp only [cInstrSize] at low
    omega
  have rodata : module.isText offset = false := by
    simp only [RoModule.isText, adjacent, Bool.not_eq_false', ge_iff_le, decide_eq_true_eq,
      BitVec.le_def, BitVec.toNat_add]
    simp only [RoModule.textBytes, RoModule.rodataBytes] at outside
    omega
  rw [roByte, sum, if_neg (by omega), memcpy, if_neg]
  rw [RoModule.rwPtr, rodata, if_neg Bool.false_ne_true, show (4 : U64).toNat = 4 from rfl]
  rw [adjacent, ← BitVec.toNat_inj.ne, BitVec.toNat_add] at away
  simp only [RoModule.textBytes, RoModule.rodataBytes, cInstrSize] at *
  simp only [BitVec.toNat_sub, BitVec.toNat_add, BitVec.toNat_ofNat]
  omega

/-- So the word there is the one that was there before. -/
theorem Laid.readInstr_unwritten (laid : Laid module) (byte : Byte) (source : ℕ → Byte)
    (last : module.mTextRange.mStart.toNat + offset.toNat = 2 ^ 64 - 4)
    (outside : module.textBytes + module.rodataBytes ≤ offset.toNat) :
    readInstr module (memcpy (fun _ => byte) (module.rwPtr offset) source 4) offset =
      byte ++ byte ++ byte ++ byte := by
  have unwritten (j : ℕ) (low : j < cInstrSize) :=
    laid.unwritten (fun _ => byte) source low last outside
  rw [readInstr, show (3 : U64) = BitVec.ofNat 64 3 from rfl, unwritten 3 (by decide),
    show (2 : U64) = BitVec.ofNat 64 2 from rfl, unwritten 2 (by decide),
    show (1 : U64) = BitVec.ofNat 64 1 from rfl, unwritten 1 (by decide),
    show (0 : U64) = BitVec.ofNat 64 0 from rfl, unwritten 0 (by decide)]

/-- A branch whose immediate is not zero leads elsewhere than the word zero does. -/
theorem grabBBLAddr_ones_ne (pc : Ptr) : grabBBLAddr 0x01010101 pc ≠ grabBBLAddr 0 pc := by
  intro same
  have moved := congrArg (· - pc) same
  simp only [grabBBLAddr, BitVec.add_comm pc, BitVec.add_sub_cancel] at moved
  exact absurd moved (by decide)

theorem writeUnconditionalBranch_of_accepts (memory : Memory) (accepts : Accepts module offset 4) :
    writeUnconditionalBranch operand module memory offset target =
      (.ok (), memcpy memory (module.rwPtr offset) (instrByte
        [makeUnconditionalBranch operand (module.mTextRange.mStart + offset) target]) 4) := by
  obtain ⟨text, rodata, range⟩ := accepts
  have checked : module.inRange offset (BitVec.ofNat 64 (1 * cInstrSize)) = true := range
  rw [writeUnconditionalBranch, writeInstrs, RoModule.writeRo, if_neg text, if_neg rodata]
  simp only [List.length_cons, List.length_nil, Nat.zero_add, checked, Bool.not_true,
    Bool.false_eq_true, if_false]
  rfl

theorem writeUnconditionalBranch_of_not_accepts (operand : UnconditionalBranchOp) (target : Ptr)
    (memory : Memory) (refused : ¬ Accepts module offset 4) :
    ∃ rc, writeUnconditionalBranch operand module memory offset target = (.error rc, memory) := by
  rcases writeInstrs_cases module offset memory
    [makeUnconditionalBranch operand (module.mTextRange.mStart + offset) target] with
    failed | ⟨accepted, -⟩
  · exact failed
  · exact absurd accepted refused

/-- A write that is refused is right. -/
theorem branches_iff_of_refused (operand : UnconditionalBranchOp) (target : Ptr)
    (refused : ¬ Accepts module offset 4) :
    Branches operand module offset target ↔ Reaches module offset target := by
  refine iff_of_true (fun memory => ?_) fun accepts => (refused accepts).elim
  obtain ⟨rc, failed⟩ := writeUnconditionalBranch_of_not_accepts operand target memory
    refused
  rw [failed]

/-- A branch that is written in the module is read back. -/
theorem Laid.readInstr_written (laid : Laid module) (operand : UnconditionalBranchOp)
    (target : Ptr) (aligned : offset.toNat % cInstrSize = 0)
    (inside : offset.toNat + cInstrSize ≤ module.textBytes + module.rodataBytes) (memory : Memory) :
    ∃ after, writeUnconditionalBranch operand module memory offset target = (.ok (), after) ∧
      readInstr module after offset =
        makeUnconditionalBranch operand (module.mTextRange.mStart + offset) target := by
  have within : Within module offset
      ([makeUnconditionalBranch operand (module.mTextRange.mStart + offset) target].length *
        cInstrSize) := laid.within aligned inside
  obtain ⟨after, wrote, read⟩ := writeInstrs_of_within memory laid.toMapped within
  refine ⟨after, wrote, ?_⟩
  have first := List.head_eq_of_cons_eq read
  simpa only [Nat.zero_mul, BitVec.ofNat_eq_ofNat, BitVec.add_zero] using first

/-- The write of a branch at an offset. -/
theorem branches_iff (operand : UnconditionalBranchOp) (loaded : Loaded module)
    (aligned : offset.toNat % cInstrSize = 0) (targetAligned : target.toNat % cInstrSize = 0) :
    Branches operand module offset target ↔ Reaches module offset target := by
  rcases Decidable.em (Accepts module offset 4) with accepts | refused
  swap
  · exact branches_iff_of_refused operand target refused
  have laid := loaded accepts.1 accepts.2.1
  have distance : (target - (module.mTextRange.mStart + offset)).toNat % 4 = 0 := by
    have start := laid.start
    rw [BitVec.toNat_sub, BitVec.toNat_add]
    simp only [cInstrSize] at *
    omega
  rcases Decidable.em (offset.toNat + cInstrSize ≤ module.textBytes + module.rodataBytes)
    with inside | outside
  · have written (memory : Memory) := laid.readInstr_written operand target aligned inside memory
    constructor
    · intro branches _
      obtain ⟨after, wrote, read⟩ := written fun _ => 0
      have arrives := branches fun _ => 0
      rw [wrote] at arrives
      change grabBBLAddr (readInstr module after offset) _ = target at arrives
      rw [read, grabBBLAddr_eq_iff operand distance] at arrives
      exact ⟨inside, arrives⟩
    · intro reaches memory
      obtain ⟨after, wrote, read⟩ := written memory
      rw [wrote]
      change grabBBLAddr (readInstr module after offset) _ = target
      rw [read, grabBBLAddr_eq_iff operand distance]
      exact (reaches accepts).2
  · refine iff_of_false (fun branches => ?_) fun reaches => outside (reaches accepts).1
    obtain ⟨last, beyond⟩ := laid.last aligned accepts.2.2 outside
    -- the word at the address is whatever was in memory
    have arrives (byte : Byte) : grabBBLAddr (byte ++ byte ++ byte ++ byte)
        (module.mTextRange.mStart + offset) = target := by
      have arrives := branches fun _ => byte
      rw [writeUnconditionalBranch_of_accepts _ accepts] at arrives
      change grabBBLAddr (readInstr module _ offset) _ = target at arrives
      rwa [laid.readInstr_unwritten byte _ last beyond] at arrives
    exact grabBBLAddr_ones_ne _ ((arrives 1).trans (arrives 0).symm)

/-- The module that an address is in. -/
def moduleAt (sModules : List LoadedModule) (addr : Ptr) : Option LoadedModule :=
  (getModuleContaining sModules addr).bind fun i => sModules[i]?

/-- The address is in a module, and the write there reaches. -/
def ReachesAtPtr (sModules : List LoadedModule) (addr target : Ptr) : Prop :=
  ∃ module, moduleAt sModules addr = some module ∧
    Reaches module.toRoModule (addr - module.range.mStart) target

theorem branchesAtPtr_of_module {sModules : List LoadedModule} {addr : Ptr} {module : LoadedModule}
    (found : moduleAt sModules addr = some module) :
    BranchesAtPtr operand sModules addr target ↔
      Branches operand module.toRoModule (addr - module.range.mStart) target := by
  have start : module.mTextRange.mStart + (addr - module.range.mStart) = addr := by
    change module.range.mStart + _ = _
    rw [BitVec.add_comm, BitVec.sub_add_cancel]
  have same (memory : Memory) : writeUnconditionalBranchAtPtr operand sModules memory addr target =
      some (writeUnconditionalBranch operand module.toRoModule memory
        (addr - module.range.mStart) target) := by
    rw [writeUnconditionalBranchAtPtr]
    rw [show ((getModuleContaining sModules addr).bind fun i => sModules[i]?) = some module
      from found]
  apply forall_congr'
  intro memory
  rw [same]
  cases wrote : writeUnconditionalBranch operand module.toRoModule memory
    (addr - module.range.mStart) target with
  | mk result after =>
    cases result with
    | error => exact Iff.rfl
    | ok =>
      rw [start]
      obtain ⟨i, index, at_⟩ := Option.bind_eq_some_iff.mp found
      constructor
      · rintro ⟨i', module', index', at', arrives⟩
        rw [index] at index'
        obtain rfl := Option.some.inj index'
        rw [at_] at at'
        obtain rfl := Option.some.inj at'
        exact arrives
      · intro arrives
        exact ⟨i, module, index, at_, arrives⟩

/-- Both forms of both branches do what they should exactly when the module is there and the target
in reach. -/
theorem branches_iff_reaches (operand : UnconditionalBranchOp) {target : Ptr}
    (targetAligned : target.toNat % cInstrSize = 0) :
    (∀ (module : RoModule) (offset : U64), Loaded module → offset.toNat % cInstrSize = 0 →
      (Branches operand module offset target ↔ Reaches module offset target)) ∧
    ∀ (sModules : List LoadedModule) (addr : Ptr),
      (∀ module ∈ sModules, Loaded module.toRoModule) → addr.toNat % cInstrSize = 0 →
        (BranchesAtPtr operand sModules addr target ↔ ReachesAtPtr sModules addr target) := by
  constructor
  · intro module offset loaded aligned
    exact branches_iff operand loaded aligned targetAligned
  · intro sModules addr loaded addrAligned
    cases found : moduleAt sModules addr with
    | none =>
      have null (memory : Memory) :
          writeUnconditionalBranchAtPtr operand sModules memory addr target = none := by
        rw [writeUnconditionalBranchAtPtr]
        rw [show ((getModuleContaining sModules addr).bind fun i => sModules[i]?) = none from found]
      refine iff_of_false (fun branches => ?_) ?_
      · have absurd := branches fun _ => 0
        rwa [null] at absurd
      · rintro ⟨module, absurd, -⟩
        rw [found] at absurd
        cases absurd
    | some module =>
      rw [branchesAtPtr_of_module found]
      have reaches : ReachesAtPtr sModules addr target ↔
          Reaches module.toRoModule (addr - module.range.mStart) target := by
        rw [ReachesAtPtr, found]
        simp only [Option.some.injEq, exists_eq_left']
      rw [reaches]
      obtain ⟨i, -, at_⟩ := Option.bind_eq_some_iff.mp found
      have moduleLoaded := loaded module (List.mem_of_getElem? at_)
      rcases Decidable.em (Accepts module.toRoModule (addr - module.range.mStart) 4) with
        accepts | refused
      · have start := (moduleLoaded accepts.1 accepts.2.1).start
        apply branches_iff operand moduleLoaded _ targetAligned
        rw [BitVec.toNat_sub, LoadedModule.range]
        simp only [cInstrSize] at *
        omega
      · exact branches_iff_of_refused operand target refused

/-- Two pages at the addresses of `twoPages`, with a page of data. -/
def threePages : LoadedModule := { RoModule.twoPages with mDataRange := ⟨0x3000, 0x1000⟩ }

theorem laid_twoPages : Laid RoModule.twoPages := by
  constructor
  · exact RoModule.mapped_twoPages
  all_goals decide

theorem branches_near : Branches .Branch RoModule.twoPages 0x10 0x8001000 ∧
    BranchesAtPtr .BranchLink [threePages] 0x1010 0x8001000 := by
  obtain ⟨atOffset, -⟩ := branches_iff_reaches .Branch (show (0x8001000 : Ptr).toNat % cInstrSize = 0
    by decide)
  obtain ⟨-, atPtr⟩ := branches_iff_reaches .BranchLink (show (0x8001000 : Ptr).toNat % cInstrSize = 0
    by decide)
  constructor
  · exact (atOffset RoModule.twoPages 0x10 (fun _ _ => laid_twoPages) (by decide)).mpr (by decide)
  · apply (atPtr [threePages] 0x1010 _ (by decide)).mpr
    · exact ⟨threePages, rfl, by decide⟩
    · intro module member
      obtain rfl := List.mem_singleton.mp member
      exact fun _ _ => laid_twoPages

/-- A target that is 128 MiB away is written as one that is 128 MiB before, and an address outside
of every module dereferences a null pointer. -/
theorem not_branches : Loaded RoModule.twoPages ∧
    ¬ Branches .Branch RoModule.twoPages 0x10 0x8001010 ∧
      ¬ BranchesAtPtr .Branch [] 0x1010 0x1000 := by
  refine ⟨fun _ _ => laid_twoPages, fun branches => ?_, fun branches => branches fun _ => 0⟩
  obtain ⟨after, wrote, read⟩ := laid_twoPages.readInstr_written .Branch 0x8001010
    (show (0x10 : U64).toNat % cInstrSize = 0 by decide) (by decide) fun _ => 0
  have arrives := branches fun _ => 0
  rw [wrote] at arrives
  change grabBBLAddr (readInstr RoModule.twoPages after 0x10) _ = _ at arrives
  rw [read] at arrives
  exact absurd arrives (by decide)

end Hakkun.Hook
