import Hakkun.Machine.A64.Address
import Hakkun.Machine.A64.MoveWide

/-! # Execution of A64 instructions

A state has the registers, the stack pointer, the flags, the program counter and the memory, of
which a word is read at its address. The instructions here are those that form an address or a
constant, that load a literal and that branch without a condition; others have no result. A run of
words that are loaded at the program counter is the run of its parts one after the other.
-/

namespace Hakkun.A64

@[ext] structure State where
  registers : Registers
  sp : BitVec 64
  flags : BitVec 4
  pc : BitVec 64
  memory : BitVec 64 → Word

namespace State

variable (s : State)

/-- A write of a register by an instruction that does not branch. -/
def set (r : RegField) (value : BitVec 64) : State :=
  { s with registers := s.registers.write r value, pc := s.pc + 4 }

/-- A register of an addition of an immediate, of which number 31 is the stack pointer. -/
def readSp (r : RegField) : BitVec 64 := if r = 31 then s.sp else s.registers r

def setSp (r : RegField) (value : BitVec 64) : State :=
  if r = 31 then { s with sp := value, pc := s.pc + 4 } else s.set r value

/-- A branch, and a branch that leaves the address after it in the link register. -/
def jump (target : BitVec 64) : State := { s with pc := target }

def call (target : BitVec 64) : State :=
  { s with registers := s.registers.write 30 (s.pc + 4), pc := target }

/-- The 64 bits at an address. -/
def load (address : BitVec 64) : BitVec 64 := s.memory (address + 4) ++ s.memory address

/-- Past `n` words, with a register written. -/
def moved (r : RegField) (value : BitVec 64) (n : ℕ) : State :=
  { s with registers := s.registers.write r value, pc := s.pc + BitVec.ofNat 64 (4 * n) }

@[simp] theorem set_pc (r : RegField) (value : BitVec 64) : (s.set r value).pc = s.pc + 4 := rfl
@[simp] theorem set_memory (r : RegField) (value : BitVec 64) :
    (s.set r value).memory = s.memory := rfl
@[simp] theorem set_registers (r : RegField) (value : BitVec 64) :
    (s.set r value).registers = s.registers.write r value := rfl
@[simp] theorem set_sp (r : RegField) (value : BitVec 64) : (s.set r value).sp = s.sp := rfl
@[simp] theorem set_flags (r : RegField) (value : BitVec 64) :
    (s.set r value).flags = s.flags := rfl

theorem moved_one (r : RegField) (value : BitVec 64) : s.moved r value 1 = s.set r value := rfl

/-- A register that is written again. -/
theorem moved_set (r : RegField) (first second : BitVec 64) (n : ℕ) :
    (s.set r first).moved r second n = s.moved r second (n + 1) := by
  ext1
  · exact Registers.write_write ..
  · rfl
  · rfl
  · change s.pc + 4 + BitVec.ofNat 64 (4 * n) = s.pc + BitVec.ofNat 64 (4 * (n + 1))
    rw [Nat.mul_succ, Nat.add_comm, BitVec.ofNat_add, BitVec.add_assoc]
    rfl
  · rfl

end State

/-- An offset that counts words. -/
def wordOffset {n : ℕ} (imm : BitVec n) : BitVec 64 := imm.signExtend 64 <<< 2

/-- A register of which 16 bits are replaced. -/
def insertHalf (value : BitVec 64) (hw : BitVec 2) (imm : BitVec 16) : BitVec 64 :=
  (value &&& ~~~(0xffff#64 <<< (16 * hw.toNat))) ||| imm.setWidth 64 <<< (16 * hw.toNat)

def execute (s : State) : Instr → Option State
  | .adr rd imm => some (s.set rd (s.pc + imm.signExtend 64))
  | .adrp rd imm => some (s.set rd (adrpAddress s.pc imm))
  | .moveWide true opc hw imm rd =>
    if opc = Instr.movk then some (s.set rd (insertHalf (s.registers.read rd) hw imm))
    else (moveWideValue opc hw imm).map (s.set rd)
  | .addSubImm true false sh imm rn rd =>
    some (s.setSp rd (s.readSp rn + if sh then imm.setWidth 64 <<< 12 else imm.setWidth 64))
  | .literal 0b01 false imm rt => some (s.set rt (s.load (s.pc + wordOffset imm)))
  | .b imm => some (s.jump (s.pc + wordOffset imm))
  | .bl imm => some (s.call (s.pc + wordOffset imm))
  | .br rn => some (s.jump (s.registers.read rn))
  | .blr rn => some (s.call (s.registers.read rn))
  | _ => none

def step (s : State) : Option State := execute s (Instr.decode (s.memory s.pc))

def steps : ℕ → State → Option State
  | 0, s => some s
  | n + 1, s => (step s).bind (steps n)

theorem steps_add (n m : ℕ) (s : State) : steps (n + m) s = (steps n s).bind (steps m) := by
  induction n generalizing s with
  | zero => rw [Nat.zero_add]; rfl
  | succ n ih =>
    rw [Nat.succ_add, steps, steps, Option.bind_assoc]
    congr
    funext next
    exact ih next

/-! ## Words that are loaded -/

/-- The words are in memory one after the other. -/
def Loaded (memory : BitVec 64 → Word) (address : BitVec 64) (words : List Word) : Prop :=
  ∀ i word, words[i]? = some word → memory (address + BitVec.ofNat 64 (4 * i)) = word

theorem Loaded.append {memory : BitVec 64 → Word} {address : BitVec 64} {first second : List Word}
    (loaded : Loaded memory address (first ++ second)) :
    Loaded memory address first ∧
      Loaded memory (address + BitVec.ofNat 64 (4 * first.length)) second := by
  constructor
  · intro i word at_
    apply loaded
    rw [List.getElem?_append_left (List.getElem?_eq_some_iff.mp at_).1, at_]
  · intro i word at_
    have shifted := loaded (first.length + i) word
      (by rw [List.getElem?_append_right (Nat.le_add_right _ _), Nat.add_sub_cancel_left, at_])
    rw [← shifted, BitVec.add_assoc, ← BitVec.ofNat_add, Nat.mul_add]

/-- Wherever the words are loaded at the program counter, a run of them takes the state `s` to the
state `t`. -/
def Runs (words : List Word) (s t : State) : Prop :=
  Loaded s.memory s.pc words → steps words.length s = some t

/-- A run that ends after the last word. -/
def RunsOn (words : List Word) (s t : State) : Prop :=
  Runs words s t ∧ t.pc = s.pc + BitVec.ofNat 64 (4 * words.length) ∧ t.memory = s.memory

theorem RunsOn.append {first second : List Word} {s t u : State} (run : RunsOn first s t)
    (next : Runs second t u) : Runs (first ++ second) s u := by
  obtain ⟨runs, pc, memory⟩ := run
  intro loaded
  obtain ⟨here, rest⟩ := loaded.append
  rw [← pc, ← memory] at rest
  rw [List.length_append, steps_add, runs here, Option.bind_some, next rest]

theorem RunsOn.trans {first second : List Word} {s t u : State} (run : RunsOn first s t)
    (next : RunsOn second t u) : RunsOn (first ++ second) s u := by
  refine ⟨run.append next.1, ?_, next.2.2.trans run.2.2⟩
  rw [next.2.1, run.2.1, BitVec.add_assoc, ← BitVec.ofNat_add, List.length_append, Nat.mul_add]

theorem RunsOn.nil (s : State) : RunsOn [] s s := ⟨fun _ => rfl, (BitVec.add_zero _).symm, rfl⟩

theorem Runs.one {word : Word} {s t : State} (executes : execute s (Instr.decode word) = some t) :
    Runs [word] s t := by
  intro loaded
  have here := loaded 0 word rfl
  rw [Nat.mul_zero, BitVec.add_zero] at here
  rw [List.length_singleton, steps, step, here, executes]
  rfl

/-- One instruction that writes a register. -/
theorem RunsOn.set {word : Word} {s : State} {r : RegField} {value : BitVec 64}
    (executes : execute s (Instr.decode word) = some (s.set r value)) :
    RunsOn [word] s (s.set r value) := ⟨.one executes, rfl, rfl⟩

/-! ## Halves of a register -/

/-- Bits `16 * i` and the next 15. -/
def half (value : BitVec 64) (i : ℕ) : BitVec 16 := value.extractLsb' (16 * i) 16

theorem eq_of_halves {first second : BitVec 64} (same : ∀ i < 4, half first i = half second i) :
    first = second := by
  apply BitVec.eq_of_getLsbD_eq
  intro i bound
  have bit := congrArg (BitVec.getLsbD · (i % 16)) (same (i / 16) (by omega))
  simp only [half, BitVec.getLsbD_extractLsb'] at bit
  rwa [decide_eq_true (Nat.mod_lt _ (by decide)), Nat.div_add_mod, Bool.true_and,
    Bool.true_and] at bit

theorem ones_getLsbD (j : ℕ) : (0xffff#64).getLsbD j = decide (j < 16) := by
  rw [BitVec.getLsbD, show (0xffff#64).toNat = 2 ^ 16 - 1 from rfl, Nat.testBit_two_pow_sub_one]

theorem half_insertHalf (value : BitVec 64) (hw : BitVec 2) (imm : BitVec 16) {i : ℕ}
    (small : i < 4) :
    half (insertHalf value hw imm) i = if i = hw.toNat then imm else half value i := by
  have bound := hw.isLt
  apply BitVec.eq_of_getLsbD_eq
  intro j inside
  simp only [half, insertHalf, BitVec.getLsbD_extractLsb', BitVec.getLsbD_or, BitVec.getLsbD_and,
    BitVec.getLsbD_not, BitVec.getLsbD_shiftLeft, BitVec.getLsbD_setWidth, ones_getLsbD]
  rw [decide_eq_true inside, decide_eq_true (show 16 * i + j < 64 by omega), Bool.true_and]
  rcases Nat.lt_trichotomy i hw.toNat with below | same | above
  · rw [if_neg (Nat.ne_of_lt below), decide_eq_true (show 16 * i + j < 16 * hw.toNat by omega)]
    simp [inside]
  · rw [if_pos same, ← same, Nat.add_sub_cancel_left, decide_eq_true inside,
      decide_eq_false (show ¬ 16 * i + j < 16 * i by omega), decide_eq_true (show j < 64 by omega)]
    simp
  · rw [if_neg (Nat.ne_of_gt above),
      decide_eq_false (show ¬ 16 * i + j < 16 * hw.toNat by omega),
      decide_eq_false (show ¬ 16 * i + j - 16 * hw.toNat < 16 by omega),
      BitVec.getLsbD_of_ge imm _ (by omega)]
    simp [inside]

end Hakkun.A64
