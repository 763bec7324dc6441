import Hakkun.Machine.A64.Address
import Hakkun.Model.Hook.Instrs
import Hakkun.Model.Sail.Detail

/-! # Globals that are read through an `ADRP`

`readADRPGlobal` takes one bit of the page less than there is, which loses the sign, and does not
look at the width of the second instruction. It agrees with the processor on pages that are not
before the program counter, unless the second instruction is an `ADD` or an `LDR` of 32 bits.
-/

namespace Hakkun.Sail

open Hook

/-! ## The page -/

/-- A masked field of a word. -/
theorem and_mask_toNat (word : U32) (lo width : ℕ) {mask : U32}
    (ones : mask.toNat = 2 ^ width - 1) :
    (word >>> lo &&& mask).toNat = word.toNat / 2 ^ lo % 2 ^ width := by
  rw [BitVec.toNat_and, ones, Nat.and_two_pow_sub_one_eq_mod, BitVec.toNat_ushiftRight,
    Nat.shiftRight_eq_div_pow]

/-- The page that `readADRPGlobal` computes. -/
def adrpPage (adrpInstr : U32) (pc : Ptr) : Ptr :=
  let immhi := adrpInstr >>> 5 &&& 0b111111111111111111
  let immlo := adrpInstr >>> 29 &&& 0b11
  let offset : U64 := ((immhi <<< 2 ||| immlo) <<< 12).setWidth 64
  let offset := if offset &&& 1#64 <<< 32 ≠ 0 then offset ||| 0xfff00000 else offset
  (pc &&& ~~~0xfff) + offset

variable {adrpInstr : U32} {pc : Ptr} {rd : A64.RegField} {imm : BitVec 21}

theorem adrpPage_eq (adrp : A64.Instr.decode adrpInstr = .adrp rd imm) :
    adrpPage adrpInstr pc = (pc &&& ~~~0xfff) + BitVec.ofNat 64 (imm.toNat % 2 ^ 20 * 4096) := by
  obtain ⟨-, -, fields⟩ := A64.Instr.fields_of_adrp adrp
  have high : (adrpInstr >>> 5 &&& 0b111111111111111111).toNat = adrpInstr.toNat / 2 ^ 5 % 2 ^ 18 :=
    and_mask_toNat adrpInstr 5 18 rfl
  have low : (adrpInstr >>> 29 &&& 0b11).toNat = adrpInstr.toNat / 2 ^ 29 % 2 ^ 2 :=
    and_mask_toNat adrpInstr 29 2 rfl
  have parts := imm_toNat (show 18 ≤ 20 by decide) (by rw [high]; exact Nat.mod_lt _ (by decide))
    (show (adrpInstr >>> 29 &&& 0b11).toNat < 4 by rw [low]; exact Nat.mod_lt _ (by decide))
  have unsigned (value : U32) : value.setWidth 64 &&& 1#64 <<< 32 = 0 := by
    apply BitVec.eq_of_getLsbD_eq
    intro i bound
    simp only [BitVec.getLsbD_and, BitVec.getLsbD_setWidth, BitVec.getLsbD_shiftLeft,
      BitVec.getLsbD_one]
    grind
  simp only [adrpPage, unsigned, ne_eq, not_true_eq_false, if_false]
  congr 1
  rw [← BitVec.toNat_inj, BitVec.toNat_setWidth, BitVec.toNat_shiftLeft, Nat.shiftLeft_eq, parts,
    high, low, BitVec.toNat_ofNat, fields]
  generalize adrpInstr.toNat / 2 ^ 5 = hi, adrpInstr.toNat / 2 ^ 29 = lo
  clear high low parts
  omega

theorem adrpAddress_toNat (imm : BitVec 21) :
    (imm.signExtend 64 <<< 12).toNat =
      (imm.toNat % 2 ^ 20 * 4096 + if imm.toNat < 2 ^ 20 then 0 else 2 ^ 64 - 2 ^ 32) := by
  have bound := imm.isLt
  rw [BitVec.toNat_shiftLeft, Nat.shiftLeft_eq, BitVec.toNat_signExtend, BitVec.msb_eq_decide,
    BitVec.toNat_setWidth]
  simp only [decide_eq_true_eq]
  split_ifs <;> omega

/-- The page is that of the processor exactly when it is not before the program counter. -/
theorem adrpPage_eq_iff (adrp : A64.Instr.decode adrpInstr = .adrp rd imm) :
    adrpPage adrpInstr pc = A64.adrpAddress pc imm ↔ imm.toNat < 2 ^ 20 := by
  have same : adrpPage adrpInstr pc = A64.adrpAddress pc imm ↔
      BitVec.ofNat 64 (imm.toNat % 2 ^ 20 * 4096) = imm.signExtend 64 <<< 12 := by
    rw [adrpPage_eq adrp]
    exact BitVec.add_right_inj _
  rw [same, ← BitVec.toNat_inj, adrpAddress_toNat, BitVec.toNat_ofNat]
  split <;> omega

/-- The decoder that is used elsewhere gives the page of the processor. -/
theorem grabAdrAdrpAddr_eq (adrp : A64.Instr.decode adrpInstr = .adrp rd imm) :
    grabAdrAdrpAddr adrpInstr pc = A64.adrpAddress pc imm := by
  obtain ⟨kind, page, fields⟩ := A64.Instr.fields_of_adrp adrp
  have immediate : adrpInstr.toNat / 2 ^ 5 % 2 ^ 19 * 4 + adrpInstr.toNat / 2 ^ 29 % 2 ^ 2 =
      imm.toNat := fields.symm
  have addend := grabAdrAddend_toNat adrpInstr
  rw [immediate] at addend
  rw [grabAdrAdrpAddr_of_adrp kind page, A64.adrpAddress]
  change (pc &&& ~~~0xfff) + grabAdrpAddend adrpInstr = _
  congr 1
  rw [← BitVec.toNat_inj, adrpAddress_toNat, grabAdrpAddend, BitVec.toNat_mul, addend,
    show cPageSize.toNat = 4096 from rfl]
  have bound := imm.isLt
  clear addend immediate kind page fields
  split_ifs <;> omega

/-! ## The second instruction -/

/-- The read of a global; it is refused where `QueryMemory` does not say that it can be read. -/
def loadGlobal (process : Process) (globalPtr : Ptr) : Except Fault (Option Ptr) :=
  if process.readable globalPtr then
    match process.read64 globalPtr with
    | none => .error .undefined
    | some value => .ok (some value)
  else .ok none

/-- What the processor makes of the pair of an `ADRP` with an immediate and a second instruction;
without one of them there is no result. -/
def pairResult (process : Process) (pc : Ptr) (imm : BitVec 21) (loInstr : U32) :
    Except Fault (Option Ptr) :=
  match A64.addressUse loInstr with
  | .sum addend => .ok (some (A64.adrpAddress pc imm + addend))
  | .load offset => loadGlobal process (A64.adrpAddress pc imm + offset)
  | .other => .ok none

/-- The page is that of the decoder, and whatever can be read in memory the result is that of the
processor. -/
def AgreesWithProcessor (process : Process) (pc : Ptr) (loInstrOffset adrpInstr loInstr : U32)
    (imm : BitVec 21) : Prop :=
  adrpPage adrpInstr pc = grabAdrAdrpAddr adrpInstr pc ∧
    ∀ readable read64,
      readADRPGlobal { process with readable := readable, read64 := read64 } pc loInstrOffset =
        pairResult { process with readable := readable, read64 := read64 } pc imm loInstr

/-- The page is not before the program counter, and the second instruction is neither an `ADD`
(immediate) nor an `LDR` (unsigned offset) of 32 bits. -/
def Supported (imm : BitVec 21) (loInstr : U32) : Prop :=
  0 ≤ imm.toInt ∧ loInstr.extractLsb' 23 9 ≠ 0b000100010 ∧ loInstr.extractLsb' 22 10 ≠ 0b1011100101

instance (imm : BitVec 21) (loInstr : U32) : Decidable (Supported imm loInstr) :=
  inferInstanceAs (Decidable (_ ∧ _ ∧ _))

/-- `readADRPGlobal` by the fields of the second instruction. -/
theorem readADRPGlobal_eq {process : Process} {loInstrOffset loInstr : U32}
    (adrp : A64.Instr.decode adrpInstr = .adrp rd imm) (first : process.read32 pc = some adrpInstr)
    (second : process.read32 (pc + loInstrOffset.signExtend 64 * 4) = some loInstr) :
    readADRPGlobal process pc loInstrOffset =
      if loInstr.toNat / 2 ^ 31 % 2 = 1 ∧ loInstr.toNat / 2 ^ 22 % 2 ^ 8 = 0b11100101 then
        loadGlobal process (adrpPage adrpInstr pc + ((loInstr >>> 10 &&& 0b111111111111) <<<
          (loInstr >>> 30 &&& 0b11).toNat).setWidth 64)
      else if loInstr.toNat / 2 ^ 23 % 2 ^ 8 = 0b00100010 then
        .ok (some (adrpPage adrpInstr pc + (if loInstr >>> 22 &&& 0b1 ≠ 0 then
          (loInstr >>> 10 &&& 0b111111111111) <<< 12
        else loInstr >>> 10 &&& 0b111111111111).setWidth 64))
      else .ok none := by
  obtain ⟨kind, page, -⟩ := A64.Instr.fields_of_adrp adrp
  have op : adrpInstr >>> 31 &&& 0b1 = 1 := by
    rw [← BitVec.toNat_inj, and_mask_toNat adrpInstr 31 1 rfl]
    exact page
  have class_ : adrpInstr >>> 24 &&& 0b11111 = 0b10000 := by
    rw [← BitVec.toNat_inj, and_mask_toNat adrpInstr 24 5 rfl]
    exact kind
  have load : loInstr >>> 31 &&& 0b1 = 0b1 ∧ loInstr >>> 22 &&& 0b11111111 = 0b11100101 ↔
      loInstr.toNat / 2 ^ 31 % 2 = 1 ∧ loInstr.toNat / 2 ^ 22 % 2 ^ 8 = 0b11100101 := by
    rw [← BitVec.toNat_inj, ← BitVec.toNat_inj, and_mask_toNat loInstr 31 1 rfl,
      and_mask_toNat loInstr 22 8 rfl]
    rfl
  have add : loInstr >>> 23 &&& 0b11111111 = 0b00100010 ↔
      loInstr.toNat / 2 ^ 23 % 2 ^ 8 = 0b00100010 := by
    rw [← BitVec.toNat_inj, and_mask_toNat loInstr 23 8 rfl]
    rfl
  rw [readADRPGlobal, first]
  dsimp only
  rw [if_neg (not_not.mpr op), if_neg (not_not.mpr class_), second]
  dsimp only
  simp only [load, add]
  rfl

theorem toInt_nonneg_iff (imm : BitVec 21) : 0 ≤ imm.toInt ↔ imm.toNat < 2 ^ 20 := by
  have := imm.isLt
  have := imm.toInt_eq_toNat_cond
  split at this <;> omega

/-- The 12-bit field of a second instruction, shifted within 32 bits. -/
theorem imm12_setWidth (loInstr : U32) {shift : ℕ} (small : shift ≤ 12) :
    ((loInstr >>> 10 &&& 0b111111111111) <<< shift).setWidth 64 =
      ((loInstr.extractLsb' 10 12).setWidth 64 : U64) <<< shift := by
  have power : 2 ^ shift ≤ 2 ^ 12 := Nat.pow_le_pow_right (by decide) small
  have field : (loInstr >>> 10 &&& 0b111111111111).toNat = loInstr.toNat / 2 ^ 10 % 2 ^ 12 :=
    and_mask_toNat loInstr 10 12 rfl
  have below : loInstr.toNat / 2 ^ 10 % 2 ^ 12 < 2 ^ 12 := Nat.mod_lt _ (by decide)
  rw [← BitVec.toNat_inj, BitVec.toNat_setWidth, BitVec.toNat_shiftLeft, BitVec.toNat_shiftLeft,
    BitVec.toNat_setWidth, Math.toNat_field, field, Nat.shiftLeft_eq, Nat.shiftLeft_eq]
  generalize loInstr.toNat / 2 ^ 10 % 2 ^ 12 = value at *
  have product : value * 2 ^ shift < 2 ^ 32 := by
    calc
      value * 2 ^ shift ≤ value * 2 ^ 12 := Nat.mul_le_mul_left _ power
      _ < 2 ^ 32 := by omega
  rw [Nat.mod_eq_of_lt (show value < 2 ^ 64 by omega), Nat.mod_eq_of_lt product]

/-- An `LDR` of 64 bits is read from the page with its offset. -/
theorem load_address {loInstr : U32} (load : loInstr.toNat / 2 ^ 22 % 2 ^ 10 = 0b1111100101) :
    ((loInstr >>> 10 &&& 0b111111111111) <<< (loInstr >>> 30 &&& 0b11).toNat).setWidth 64 =
      ((loInstr.extractLsb' 10 12).setWidth 64 : U64) <<< 3 := by
  have size : (loInstr >>> 30 &&& 0b11).toNat = 3 := by
    rw [and_mask_toNat loInstr 30 2 rfl]
    omega
  rw [size, imm12_setWidth loInstr (by decide)]

/-- The addend of an `ADD` (immediate). -/
theorem add_addend (loInstr : U32) :
    (if loInstr >>> 22 &&& 0b1 ≠ 0 then (loInstr >>> 10 &&& 0b111111111111) <<< 12
      else loInstr >>> 10 &&& 0b111111111111).setWidth 64 =
      (if loInstr.toNat / 2 ^ 22 % 2 = 1 then (loInstr.extractLsb' 10 12).setWidth 64 <<< 12
        else (loInstr.extractLsb' 10 12).setWidth 64 : U64) := by
  have sh : loInstr >>> 22 &&& 0b1 ≠ 0 ↔ loInstr.toNat / 2 ^ 22 % 2 = 1 := by
    rw [Ne, ← BitVec.toNat_inj, and_mask_toNat loInstr 22 1 rfl]
    change ¬ _ = 0 ↔ _
    omega
  simp only [sh]
  split
  · exact imm12_setWidth loInstr (by decide)
  · simpa only [BitVec.shiftLeft_zero] using imm12_setWidth loInstr (Nat.zero_le 12)

section Agreement

variable {process : Process} {loInstrOffset loInstr : U32}

/-- With the right page a supported second instruction is that of the processor. -/
theorem agrees_of_supported (adrp : A64.Instr.decode adrpInstr = .adrp rd imm)
    (first : process.read32 pc = some adrpInstr)
    (second : process.read32 (pc + loInstrOffset.signExtend 64 * 4) = some loInstr)
    (supported : Supported imm loInstr) :
    readADRPGlobal process pc loInstrOffset = pairResult process pc imm loInstr := by
  obtain ⟨forward, narrowAdd, narrowLoad⟩ := supported
  simp only [ne_eq, ← BitVec.toNat_inj, Math.toNat_field, BitVec.reduceToNat]
    at narrowAdd narrowLoad
  rw [readADRPGlobal_eq adrp first second,
    (adrpPage_eq_iff adrp).mpr ((toInt_nonneg_iff imm).mp forward), pairResult]
  split
  · rename_i fields
    have load : loInstr.toNat / 2 ^ 22 % 2 ^ 10 = 0b1111100101 := by omega
    rw [load_address load, A64.addressUse_of_load load]
  · rename_i noLoad
    split
    · rename_i add
      rw [add_addend, A64.addressUse_of_add (by omega) add]
    · rename_i noAdd
      rw [A64.addressUse_of_other (by omega) (by omega)]

/-- An `ADD` of 32 bits has a result. -/
theorem not_agrees_of_add (adrp : A64.Instr.decode adrpInstr = .adrp rd imm)
    (first : process.read32 pc = some adrpInstr)
    (second : process.read32 (pc + loInstrOffset.signExtend 64 * 4) = some loInstr)
    (add : loInstr.toNat / 2 ^ 23 % 2 ^ 9 = 0b000100010) :
    readADRPGlobal process pc loInstrOffset ≠ pairResult process pc imm loInstr := by
  rw [readADRPGlobal_eq adrp first second, if_neg (by omega), if_pos (by omega), pairResult,
    A64.addressUse_of_other (by omega) (by omega)]
  intro same
  cases same

/-- An `LDR` of 32 bits has a result where it can be read. -/
theorem not_agrees_of_load (adrp : A64.Instr.decode adrpInstr = .adrp rd imm)
    (first : process.read32 pc = some adrpInstr)
    (second : process.read32 (pc + loInstrOffset.signExtend 64 * 4) = some loInstr)
    (load : loInstr.toNat / 2 ^ 22 % 2 ^ 10 = 0b1011100101)
    (readable : ∀ ptr, process.readable ptr = true) (read : ∀ ptr, process.read64 ptr = some 0) :
    readADRPGlobal process pc loInstrOffset ≠ pairResult process pc imm loInstr := by
  rw [readADRPGlobal_eq adrp first second, if_pos (by omega), loadGlobal, if_pos (readable _),
    read, pairResult, A64.addressUse_of_other (by omega) (by omega)]
  intro same
  cases same

/-- `readADRPGlobal` agrees with the processor exactly on the supported pairs. -/
theorem agreesWithProcessor_iff (adrp : A64.Instr.decode adrpInstr = .adrp rd imm)
    (first : process.read32 pc = some adrpInstr)
    (second : process.read32 (pc + loInstrOffset.signExtend 64 * 4) = some loInstr) :
    AgreesWithProcessor process pc loInstrOffset adrpInstr loInstr imm ↔
      Supported imm loInstr := by
  constructor
  · rintro ⟨page, results⟩
    rw [grabAdrAdrpAddr_eq adrp, adrpPage_eq_iff adrp] at page
    have result := results (fun _ => true) fun _ => some 0
    refine ⟨(toInt_nonneg_iff imm).mpr page, fun add => ?_, fun load => ?_⟩
    · simp only [← BitVec.toNat_inj, Math.toNat_field, BitVec.reduceToNat] at add
      exact absurd result (not_agrees_of_add adrp (by exact first) (by exact second) add)
    · simp only [← BitVec.toNat_inj, Math.toNat_field, BitVec.reduceToNat] at load
      exact absurd result (not_agrees_of_load adrp (by exact first) (by exact second) load
        (fun _ => rfl) fun _ => rfl)
  · intro supported
    constructor
    · rw [grabAdrAdrpAddr_eq adrp, adrpPage_eq_iff adrp]
      exact (toInt_nonneg_iff imm).mp supported.1
    · intro readable read64
      exact agrees_of_supported adrp first second supported

end Agreement

/-- A process with two instructions. -/
def twoInstrs (adrpInstr loInstr : U32) : Process where
  gModules := []
  search _ _ _ := 0
  lookupSymbol _ _ _ := 0
  read32 address := some (if address = 0x5000 then adrpInstr else loInstr)
  read64 _ := some 0
  readable _ := true

/-- `adrp x0, #0x1000` and `add x0, x0, #16`. -/
theorem agrees_forward :
    AgreesWithProcessor (twoInstrs 0xb0000000 0x91004000) 0x5000 1 0xb0000000 0x91004000 1 := by
  apply (agreesWithProcessor_iff (show A64.Instr.decode 0xb0000000 = .adrp 0 1 by decide) rfl
    rfl).mpr
  decide

/-- `adrp x0, #-0x1000`: the page is 4 GiB too far. -/
theorem not_agrees_backward : A64.Instr.decode 0xf0ffffe0 = .adrp 0 (-1) ∧
    readADRPGlobal (twoInstrs 0xf0ffffe0 0x91004000) 0x5000 1 = .ok (some 0x100004010) ∧
      pairResult (twoInstrs 0xf0ffffe0 0x91004000) 0x5000 (-1) 0x91004000 = .ok (some 0x4010) ∧
        ¬ AgreesWithProcessor (twoInstrs 0xf0ffffe0 0x91004000) 0x5000 1 0xf0ffffe0 0x91004000
          (-1) := by
  refine ⟨by decide, rfl, rfl, ?_⟩
  rintro ⟨page, -⟩
  exact absurd page (by decide)

end Hakkun.Sail
