import Hakkun.Machine.Core.Run
import Hakkun.Soundness.EmittedCode

/-! # Literals at the end of a buffer

An emitter that may use instructions as data reserves two words below the end of its buffer for each
wide value. It reserves the second and the third word from the end but takes the last two off the
capacity, so the first word of a literal can be overwritten by the next instruction, or overwrites
the load itself. While one word stays free between the code and the literals, and no literal is
further away than a load reaches, every load finds its value.
-/

namespace Hakkun.Hook

open A64 Machine

/-! ## Calls of an emitter -/

inductive Call where
  | emit (instr : Instr)
  | emitSpan (instrs : List Instr)
  | emitMovImmediate64 (reg : IRegType) (value : U64)
  | emitBranch (target : Ptr) (link : Bool)

/-- A value that is in reach of neither an `ADR` nor an `ADRP`. -/
def needsLiteral (value pc : U64) : Prop :=
  ¬ abs (pc - value) ≤ adrAdrpMaxDiff ∧
    ¬ abs ((pc &&& ~~~bits 12) - (value &&& ~~~bits 12)) / cPageSize ≤ adrAdrpMaxDiff

instance (value pc : U64) : Decidable (needsLiteral value pc) :=
  inferInstanceAs (Decidable (_ ∧ _))

/-- A reserved literal: where its load is and where its two words are, as indices in the buffer. -/
structure Literal where
  loadAt : ℕ
  dataAt : ℕ
  reg : IRegType
  value : U64
  deriving DecidableEq

/-- A buffer and the literals that are reserved in it, the last one first. -/
structure Pool where
  out : VecSpan
  literals : List Literal
  deriving DecidableEq

variable (mRx : Ptr)

/-- A call. -/
def perform (out : VecSpan) : Call → Option VecSpan
  | .emit instr => out.add instr
  | .emitSpan instrs => out.appendSpan instrs
  | .emitMovImmediate64 reg value => (emitMovImmediate64 true mRx out reg value).map Prod.snd
  | .emitBranch target link => (emitBranch true mRx out target link).map Prod.snd

/-- The register and the value of a call that loads a literal. -/
def literalOf (out : VecSpan) : Call → Option (IRegType × U64)
  | .emitMovImmediate64 reg value =>
    if needsLiteral value (calcCurRxAddr mRx out) then some (reg, value) else none
  | .emitBranch target _ =>
    if ¬ abs (target - calcCurRxAddr mRx out) ≤ cMaxBranchDistance ∧
        needsLiteral target (calcCurRxAddr mRx out) then some (IP0, target)
    else none
  | _ => none

/-- A call and the literal that it reserves. -/
def Pool.step (pool : Pool) (call : Call) : Option Pool :=
  (perform mRx pool.out call).map fun out =>
    { out := out
      literals := match literalOf mRx pool.out call with
        | some (reg, value) =>
          ⟨pool.out.mSize, pool.out.mCapacity - 2 - 1, reg, value⟩ :: pool.literals
        | none => pool.literals }

/-! ## What is asked and when it holds -/

/-- The two words of a literal are in the buffer. -/
def Stored (data : List Instr) (literal : Literal) : Prop :=
  data[literal.dataAt]? = some ((literal.value &&& bits 32).setWidth 32) ∧
    data[literal.dataAt + 1]? = some (((literal.value >>> 32) &&& bits 32).setWidth 32)

/-- The load of a literal, executed where it is in the buffer, sets its register to the value. -/
def LoadsValue (data : List Instr) (literal : Literal) : Prop :=
  ∀ s : State, s.pc = mRx + BitVec.ofNat 64 (cInstrSize * literal.loadAt) →
    A64.Loaded s.memory mRx data →
      step s = some (s.set (field (encodedRegister (literal.reg.setWidth 64))) literal.value)

/-- No literal overlaps an instruction or another literal, none was overwritten, and every load
loads its value. -/
structure Pool.Sound (pool : Pool) : Prop where
  apart : ∀ literal ∈ pool.literals, pool.out.mSize ≤ literal.dataAt
  disjoint : pool.literals.Pairwise fun later earlier => later.dataAt + 2 ≤ earlier.dataAt
  stored : ∀ literal ∈ pool.literals, Stored pool.out.mData literal
  loads : ∀ literal ∈ pool.literals, LoadsValue mRx pool.out.mData literal

/-- The number of instructions of a move. -/
def moveCount (value pc : U64) : ℕ :=
  if ¬ abs (pc - value) ≤ adrAdrpMaxDiff ∧ ¬ needsLiteral value pc ∧ value &&& ~~~bits 12 ≠ value
  then 2 else 1

/-- The number of instructions of a call. -/
def instrCount (out : VecSpan) : Call → ℕ
  | .emit _ => 1
  | .emitSpan instrs => instrs.length
  | .emitMovImmediate64 _ value => moveCount value (calcCurRxAddr mRx out)
  | .emitBranch target _ =>
    if abs (target - calcCurRxAddr mRx out) ≤ cMaxBranchDistance then 1
    else moveCount target (calcCurRxAddr mRx out) + 1

/-- Where there are literals, one word stays free between them and the code; a new one is loaded to
an X register from less than 2^18 words away. -/
def Pool.Roomy (pool : Pool) (call : Call) : Prop :=
  match literalOf mRx pool.out call with
  | some (reg, _) =>
    pool.out.mSize + instrCount mRx pool.out call + 2 < pool.out.mCapacity ∧ isX reg = true ∧
      pool.out.mCapacity - 2 - 1 - pool.out.mSize < 2 ^ 18
  | none =>
    pool.literals ≠ [] → pool.out.mSize + instrCount mRx pool.out call < pool.out.mCapacity

instance (pool : Pool) (call : Call) : Decidable (pool.Roomy mRx call) :=
  match same : literalOf mRx pool.out call with
  | some (reg, _) =>
    decidable_of_iff
      (pool.out.mSize + instrCount mRx pool.out call + 2 < pool.out.mCapacity ∧ isX reg = true ∧
        pool.out.mCapacity - 2 - 1 - pool.out.mSize < 2 ^ 18)
      (by rw [Pool.Roomy, same])
  | none =>
    decidable_of_iff
      (pool.literals ≠ [] → pool.out.mSize + instrCount mRx pool.out call < pool.out.mCapacity)
      (by rw [Pool.Roomy, same])

/-! ## Additions to a buffer with literals -/

variable {mRx}

/-- The word of the load. -/
def Literal.word (literal : Literal) : Instr :=
  (A64.Instr.literal 1 false (BitVec.ofNat 19 (literal.dataAt - literal.loadAt))
    (field (encodedRegister (literal.reg.setWidth 64)))).encode

/-- The literals are above the capacity but for one word, which the code does not reach, and behind
their loads, which are words of the code. -/
structure Pool.Inv (pool : Pool) : Prop where
  whole : pool.out.Whole
  below : pool.out.mSize ≤ pool.out.mCapacity
  free : pool.literals ≠ [] → pool.out.mSize < pool.out.mCapacity
  above : ∀ literal ∈ pool.literals, pool.out.mCapacity ≤ literal.dataAt + 1
  disjoint : pool.literals.Pairwise fun later earlier => later.dataAt + 2 ≤ earlier.dataAt
  stored : ∀ literal ∈ pool.literals, Stored pool.out.mData literal
  behind : ∀ literal ∈ pool.literals, literal.loadAt < pool.out.mSize ∧
    literal.loadAt ≤ literal.dataAt ∧ literal.dataAt - literal.loadAt < 2 ^ 18
  load : ∀ literal ∈ pool.literals, pool.out.mData[literal.loadAt]? = some literal.word

theorem getElem?_append {out : VecSpan} {words : List Instr} {i : ℕ}
    (room : out.mSize + words.length ≤ out.mData.length)
    (outside : i < out.mSize ∨ out.mSize + words.length ≤ i) :
    (out.append words).mData[i]? = out.mData[i]? := by
  have front : (out.mData.take out.mSize).length = out.mSize :=
    List.length_take_of_le (by omega)
  rw [VecSpan.append]
  rcases outside with before | after
  · rw [List.append_assoc, List.getElem?_append_left (by omega), List.getElem?_take_of_lt before]
  · rw [List.getElem?_append_right (by rw [List.length_append, front]; exact after),
      List.length_append, front, List.getElem?_drop, Nat.add_sub_cancel' after]

theorem length_append {out : VecSpan} {words : List Instr}
    (room : out.mSize + words.length ≤ out.mData.length) :
    (out.append words).mData.length = out.mData.length := by
  rw [VecSpan.append, List.length_append, List.length_append, List.length_take_of_le (by omega),
    List.length_drop]
  omega

/-- Instructions that leave a word free below the literals. -/
theorem Pool.Inv.append {pool : Pool} (inv : pool.Inv) {words : List Instr}
    (room : pool.out.mSize + words.length ≤ pool.out.mCapacity)
    (free : pool.literals ≠ [] → pool.out.mSize + words.length < pool.out.mCapacity) :
    Pool.Inv { pool with out := pool.out.append words } := by
  have whole : pool.out.mCapacity ≤ pool.out.mData.length := inv.whole
  have fits : pool.out.mSize + words.length ≤ pool.out.mData.length := by omega
  have nonempty {literal : Literal} (member : literal ∈ pool.literals) : pool.literals ≠ [] :=
    List.ne_nil_of_mem member
  constructor
  · change pool.out.mCapacity ≤ (pool.out.append words).mData.length
    rw [length_append fits]
    exact whole
  · exact room
  · exact free
  · exact inv.above
  · exact inv.disjoint
  · intro literal member
    have := inv.above literal member
    have := free (nonempty member)
    obtain ⟨low, high⟩ := inv.stored literal member
    constructor
    · rwa [getElem?_append fits (.inr (by omega))]
    · rwa [getElem?_append fits (.inr (by omega))]
  · intro literal member
    obtain ⟨before, rest⟩ := inv.behind literal member
    exact ⟨Nat.lt_of_lt_of_le before (Nat.le_add_right _ _), rest⟩
  · intro literal member
    rw [getElem?_append fits (.inl (inv.behind literal member).1)]
    exact inv.load literal member

/-! ## The reservation of a literal -/

/-- A buffer after the load and the two words of a literal are written. -/
def VecSpan.reserve (out : VecSpan) (word : Instr) (value : U64) : VecSpan :=
  { mData := ((out.mData.set out.mSize word).set (out.mCapacity - 2 - 1)
      ((value &&& bits 32).setWidth 32)).set (out.mCapacity - 2 - 1 + 1)
        (((value >>> 32) &&& bits 32).setWidth 32)
    mSize := out.mSize + 1
    mCapacity := out.mCapacity - 2 }

theorem getElem?_reserve {out : VecSpan} (word : Instr) (value : U64)
    (room : out.mSize + 3 < out.mCapacity) (whole : out.Whole) :
    (out.reserve word value).mData[out.mSize]? = some word ∧
      Stored (out.reserve word value).mData ⟨out.mSize, out.mCapacity - 2 - 1, 0, value⟩ ∧
      ∀ i, i < out.mSize ∨ out.mCapacity ≤ i + 1 →
        (out.reserve word value).mData[i]? = out.mData[i]? := by
  have whole : out.mCapacity ≤ out.mData.length := whole
  refine ⟨?_, ⟨?_, ?_⟩, ?_⟩
  · rw [VecSpan.reserve, List.getElem?_set_ne (by omega), List.getElem?_set_ne (by omega),
      List.getElem?_set_self (by omega)]
  · dsimp only
    rw [VecSpan.reserve, List.getElem?_set_ne (by omega),
      List.getElem?_set_self (by rw [List.length_set]; omega)]
  · dsimp only
    rw [VecSpan.reserve,
      List.getElem?_set_self (by rw [List.length_set, List.length_set]; omega)]
  · intro i outside
    rw [VecSpan.reserve, List.getElem?_set_ne (by omega), List.getElem?_set_ne (by omega),
      List.getElem?_set_ne (by omega)]

/-- A literal of which the load is not the last free word. -/
theorem Pool.Inv.reserve {pool : Pool} (inv : pool.Inv) {reg : IRegType} (value : U64)
    (room : pool.out.mSize + 3 < pool.out.mCapacity)
    (near : pool.out.mCapacity - 2 - 1 - pool.out.mSize < 2 ^ 18) :
    let literal : Literal := ⟨pool.out.mSize, pool.out.mCapacity - 2 - 1, reg, value⟩
    Pool.Inv ⟨pool.out.reserve literal.word value, literal :: pool.literals⟩ := by
  have whole : pool.out.mCapacity ≤ pool.out.mData.length := inv.whole
  intro literal
  obtain ⟨loaded, stored, frame⟩ := getElem?_reserve literal.word value room inv.whole
  constructor
  · change pool.out.mCapacity - 2 ≤ _
    simp only [VecSpan.reserve, List.length_set]
    omega
  · change pool.out.mSize + 1 ≤ pool.out.mCapacity - 2
    omega
  · intro _
    change pool.out.mSize + 1 < pool.out.mCapacity - 2
    omega
  · intro other member
    change pool.out.mCapacity - 2 ≤ other.dataAt + 1
    rcases List.mem_cons.mp member with rfl | old
    · change pool.out.mCapacity - 2 ≤ pool.out.mCapacity - 2 - 1 + 1
      omega
    · have := inv.above other old
      omega
  · refine List.pairwise_cons.mpr ⟨?_, inv.disjoint⟩
    intro other old
    have := inv.above other old
    change pool.out.mCapacity - 2 - 1 + 2 ≤ other.dataAt
    omega
  · intro other member
    rcases List.mem_cons.mp member with rfl | old
    · exact stored
    · have := inv.above other old
      obtain ⟨low, high⟩ := inv.stored other old
      exact ⟨(frame _ (.inr (by omega))).trans low, (frame _ (.inr (by omega))).trans high⟩
  · intro other member
    rcases List.mem_cons.mp member with rfl | old
    · change pool.out.mSize < pool.out.mSize + 1 ∧ pool.out.mSize ≤ pool.out.mCapacity - 2 - 1 ∧ _
      exact ⟨Nat.lt_succ_self _, by omega, near⟩
    · obtain ⟨before, rest⟩ := inv.behind other old
      exact ⟨Nat.lt_succ_of_lt before, rest⟩
  · intro other member
    rcases List.mem_cons.mp member with rfl | old
    · exact loaded
    · have before := (inv.behind other old).1
      exact (frame _ (.inl before)).trans (inv.load other old)

/-! ## The loads -/

theorem wordOffset_ofNat {k : ℕ} (near : k < 2 ^ 18) :
    wordOffset (BitVec.ofNat 19 k) = BitVec.ofNat 64 (4 * k) := by
  rw [wordOffset, ← BitVec.toNat_inj, BitVec.toNat_shiftLeft, Nat.shiftLeft_eq,
    BitVec.toNat_signExtend, BitVec.msb_eq_decide, BitVec.toNat_setWidth, BitVec.toNat_ofNat,
    BitVec.toNat_ofNat]
  simp only [decide_eq_true_eq]
  split_ifs <;> omega

/-- The two words of a value. -/
theorem append_words (value : U64) :
    (((value >>> 32) &&& bits 32).setWidth 32 : Instr) ++
      ((value &&& bits 32).setWidth 32 : Instr) = value := by
  have bound := value.isLt
  have low : ((value &&& bits 32).setWidth 32 : Instr).toNat = value.toNat % 2 ^ 32 := by
    rw [BitVec.toNat_setWidth, and_bits_toNat _ (by decide), Nat.mod_mod]
  have high : (((value >>> 32) &&& bits 32).setWidth 32 : Instr).toNat = value.toNat / 2 ^ 32 := by
    rw [BitVec.toNat_setWidth, and_bits_toNat _ (by decide), BitVec.toNat_ushiftRight,
      Nat.shiftRight_eq_div_pow]
    omega
  rw [← BitVec.toNat_inj, Math.toNat_append_eq_add, low, high]
  omega

theorem loadsValue_of_stored {data : List Instr} {literal : Literal}
    (load : data[literal.loadAt]? = some literal.word) (stored : Stored data literal)
    (behind : literal.loadAt ≤ literal.dataAt)
    (near : literal.dataAt - literal.loadAt < 2 ^ 18) : LoadsValue mRx data literal := by
  intro s pc loaded
  have word := loaded _ _ load
  have low := loaded _ _ stored.1
  have high := loaded _ _ stored.2
  have target : s.pc + wordOffset (BitVec.ofNat 19 (literal.dataAt - literal.loadAt)) =
      mRx + BitVec.ofNat 64 (4 * literal.dataAt) := by
    rw [wordOffset_ofNat near, pc, BitVec.add_assoc, ← BitVec.ofNat_add, cInstrSize, ← Nat.mul_add,
      Nat.add_sub_cancel' behind]
  have after : mRx + BitVec.ofNat 64 (4 * literal.dataAt) + 4 =
      mRx + BitVec.ofNat 64 (4 * (literal.dataAt + 1)) := by
    rw [Nat.mul_succ, BitVec.ofNat_add, ← BitVec.add_assoc]
    rfl
  have value : s.load (mRx + BitVec.ofNat 64 (4 * literal.dataAt)) = literal.value := by
    rw [State.load, after, low, high]
    exact append_words literal.value
  have here : s.memory s.pc = literal.word := by
    rw [pc]
    exact word
  rw [A64.step, here, Literal.word, A64.Instr.decode_encode (.literal ..) trivial]
  change some (s.set _ (s.load _)) = _
  rw [target, value]

theorem Pool.Inv.sound {pool : Pool} (inv : pool.Inv) : pool.Sound mRx where
  apart := by
    intro literal member
    have above := inv.above literal member
    have free := inv.free (List.ne_nil_of_mem member)
    omega
  disjoint := inv.disjoint
  stored := inv.stored
  loads := by
    intro literal member
    obtain ⟨-, behind, near⟩ := inv.behind literal member
    exact loadsValue_of_stored (inv.load literal member) (inv.stored literal member) behind near

/-! ## One call -/

theorem room_of_addAll {out next : VecSpan} {words : List Instr}
    (below : out.mSize ≤ out.mCapacity) (added : out.addAll words = some next) :
    out.mSize + words.length ≤ out.mCapacity := by
  induction words generalizing out with
  | nil => exact below
  | cons word words ih =>
    rw [VecSpan.addAll_cons] at added
    obtain ⟨first, one, rest⟩ := Option.bind_eq_some_iff.mp added
    rw [VecSpan.add] at one
    split at one
    · rename_i room
      cases one
      have fits : out.mSize + 1 + words.length ≤ out.mCapacity :=
        ih (Nat.succ_le_of_lt room) rest
      rw [List.length_cons]
      omega
    · cases one

/-- Instructions that are added one by one keep what is asked of a buffer with literals. -/
theorem Pool.Inv.addAll {pool : Pool} (inv : pool.Inv) {next : VecSpan} {words : List Instr}
    (added : pool.out.addAll words = some next)
    (free : pool.literals ≠ [] → pool.out.mSize + words.length < pool.out.mCapacity) :
    Pool.Inv { pool with out := next } := by
  have room := room_of_addAll inv.below added
  obtain rfl := Option.some.inj (added.symm.trans (VecSpan.addAll_eq room inv.whole))
  exact inv.append room free

theorem emit_eq_some {out next : VecSpan} {instr : Option Instr}
    (emitted : emit out instr = some next) :
    ∃ word, instr = some word ∧ out.addAll [word] = some next := by
  obtain ⟨word, assembled, added⟩ := Option.bind_eq_some_iff.mp emitted
  exact ⟨word, assembled, (VecSpan.addAll_one out word).trans added⟩

/-- A move without a literal adds as many instructions as it counts. -/
theorem move_plain {out : VecSpan} {reg : IRegType} {value : U64} {result : ℕ × VecSpan}
    (plain : ¬ needsLiteral value (calcCurRxAddr mRx out))
    (moved : emitMovImmediate64 true mRx out reg value = some result) :
    ∃ words, words.length = moveCount value (calcCurRxAddr mRx out) ∧
      out.addAll words = some result.2 := by
  rw [emitMovImmediate64] at moved
  dsimp only at moved
  rw [moveCount]
  generalize calcCurRxAddr mRx out = pc at *
  by_cases near : abs (pc - value) ≤ adrAdrpMaxDiff
  · rw [if_pos near] at moved
    obtain ⟨next, emitted, rfl⟩ := Option.map_eq_some_iff.mp moved
    obtain ⟨word, -, added⟩ := emit_eq_some emitted
    exact ⟨[word], by simp [near], added⟩
  rw [if_neg near] at moved
  have pages : abs ((pc &&& ~~~bits 12) - (value &&& ~~~bits 12)) / cPageSize ≤ adrAdrpMaxDiff :=
    not_not.mp fun far => plain ⟨near, far⟩
  rw [if_pos pages] at moved
  obtain ⟨first, emitted, rest⟩ := Option.bind_eq_some_iff.mp moved
  obtain ⟨adrp, -, added⟩ := emit_eq_some emitted
  split at rest
  · rename_i split
    obtain ⟨next, second, rfl⟩ := Option.map_eq_some_iff.mp rest
    obtain ⟨add, -, more⟩ := emit_eq_some second
    refine ⟨[adrp] ++ [add], by simp [near, plain, split], ?_⟩
    rw [VecSpan.addAll_append, added]
    exact more
  · rename_i same
    cases rest
    exact ⟨[adrp], by simp [near, plain, same], added⟩

theorem registers_of_assemble {type : IInstrType} {operands : Operands} {pc : Ptr} {word : Instr}
    (assembled : assemble type operands pc = some word) :
    operands.rd < IRegType.max.setWidth 64 ∧ operands.rn < IRegType.max.setWidth 64 ∧
      operands.rm < IRegType.max.setWidth 64 := by
  rw [assemble] at assembled
  split at assembled
  · assumption
  · cases assembled

/-- The word of a load that is assembled. -/
theorem assemble_literal {reg : IRegType} {pc : Ptr} {k : ℕ} {word : Instr}
    (wide : isX reg = true) (aligned : pc.toNat % 4 = 0) (near : k < 2 ^ 18)
    (assembled : assemble .LdrLiteral
      { rd := reg.setWidth 64, imm := pc + BitVec.ofNat 64 (4 * k) } pc = some word) :
    word = (A64.Instr.literal 1 false (BitVec.ofNat 19 k)
      (field (encodedRegister (reg.setWidth 64)))).encode := by
  have registers := registers_of_assemble assembled
  have loaded : assembleLdrLiteral (encodedRegister (reg.setWidth 64)) pc
      (pc + BitVec.ofNat 64 (4 * k)) = some word := by
    rw [← assembled, assemble_of_registers registers]
  have distance : (pc + BitVec.ofNat 64 (4 * k) - pc).toNat = 4 * k := by
    rw [BitVec.add_comm, BitVec.add_sub_cancel, BitVec.toNat_ofNat]
    omega
  have operand : (reg.setWidth 64 : U64).setWidth 8 = reg := by
    rw [BitVec.setWidth_setWidth_of_le _ (by decide), BitVec.setWidth_eq]
  have isX : isX (encodedRegister (reg.setWidth 64)) = true := by
    rw [Hook.isX, isW_encodedRegister, operand]
    exact wide
  have clear : (((InstrBuilder.mk 0).set 31 30 1).set 30 24 cOpLdrLiteral).mValue.toNat %
      2 ^ (5 + 19) = 0 := rfl
  have head : (((InstrBuilder.mk 0).set 31 30 1).set 30 24 cOpLdrLiteral).mValue.toNat =
      0b01011000 * 2 ^ 24 := rfl
  obtain ⟨imm, low, high⟩ := fields_of_near
    ((encodedRegister (reg.setWidth 64)).setWidth 32) (by decide) (by decide) aligned
    (show (pc + BitVec.ofNat 64 (4 * k) - pc).toNat < 4 * 2 ^ 19 by omega)
    (toNat_setWidth_mod _ (show 19 ≤ 32 by decide)) clear
  rw [assembleLdrLiteral, isX] at loaded
  split at loaded
  · have same := Option.some.inj loaded
    change ((((InstrBuilder.mk 0).set 31 30 1).set 30 24 cOpLdrLiteral).set (4 + 19) 5 _ |>.set 4 0
      _).mValue = word at same
    rw [same] at imm low high
    rw [distance, Nat.mul_div_cancel_left _ (by decide)] at imm
    rw [head, Nat.mul_div_cancel _ (Nat.two_pow_pos _)] at high
    have upper : word.toNat / 2 ^ 5 / 2 ^ 19 = 0b01011000 := by
      rw [Nat.div_div_eq_div_mul]
      exact high
    have register : (field (encodedRegister (reg.setWidth 64))).toNat = word.toNat % 2 ^ 5 := by
      rw [low, field, BitVec.toNat_setWidth, reg_toNat, BitVec.toNat_setWidth]
      omega
    have offset : (BitVec.ofNat 19 k).toNat = k := by
      rw [BitVec.toNat_ofNat]
      omega
    rw [← BitVec.toNat_inj, A64.Instr.encode_toNat]
    simp only [A64.Instr.layout, register, offset, Bool.toNat_false]
    rw [show (1 : BitVec 2).toNat = 1 from rfl]
    omega
  · cases loaded

/-- A move with a literal reserves it. -/
theorem move_literal {out : VecSpan} {reg : IRegType} {value : U64} {result : ℕ × VecSpan}
    (aligned : mRx.toNat % 4 = 0) (wide : isX reg = true)
    (near : out.mCapacity - 2 - 1 - out.mSize < 2 ^ 18)
    (needs : needsLiteral value (calcCurRxAddr mRx out))
    (moved : emitMovImmediate64 true mRx out reg value = some result) :
    result.2 = out.reserve (Literal.word ⟨out.mSize, out.mCapacity - 2 - 1, reg, value⟩) value ∧
      out.mSize + 3 ≤ out.mCapacity := by
  have start : (calcCurRxAddr mRx out).toNat % 4 = 0 := by
    rw [calcCurRxAddr, BitVec.toNat_add, BitVec.toNat_ofNat, cInstrSize]
    omega
  rw [emitMovImmediate64] at moved
  dsimp only at moved
  rw [if_neg needs.1, if_neg needs.2, if_pos rfl] at moved
  split at moved
  · rename_i room
    obtain ⟨first, emitted, rfl⟩ := Option.map_eq_some_iff.mp moved
    obtain ⟨word, assembled, added⟩ := Option.bind_eq_some_iff.mp emitted
    have literal : mRx + BitVec.ofNat 64 ((out.mCapacity - 2 - 1) * cInstrSize) =
        calcCurRxAddr mRx out + BitVec.ofNat 64 (4 * (out.mCapacity - 2 - 1 - out.mSize)) := by
      rw [calcCurRxAddr, BitVec.add_assoc, ← BitVec.ofNat_add, cInstrSize]
      congr 2
      omega
    rw [literal] at assembled
    have encoded := assemble_literal wide start near assembled
    rw [VecSpan.add] at added
    split at added
    · cases added
      refine ⟨?_, by omega⟩
      rw [VecSpan.reserve, Literal.word, encoded]
    · cases added
  · cases moved

/-- A move with a literal keeps what is asked, with the literal. -/
theorem Pool.Inv.move_literal {pool : Pool} (inv : pool.Inv) {reg : IRegType} {value : U64}
    {result : ℕ × VecSpan} (aligned : mRx.toNat % 4 = 0) (wide : isX reg = true)
    (room : pool.out.mSize + 3 < pool.out.mCapacity)
    (near : pool.out.mCapacity - 2 - 1 - pool.out.mSize < 2 ^ 18)
    (needs : needsLiteral value (calcCurRxAddr mRx pool.out))
    (moved : emitMovImmediate64 true mRx pool.out reg value = some result) :
    Pool.Inv ⟨result.2, ⟨pool.out.mSize, pool.out.mCapacity - 2 - 1, reg, value⟩ ::
      pool.literals⟩ := by
  rw [(Hook.move_literal aligned wide near needs moved).1]
  exact inv.reserve value room near

theorem moveCount_of_needs {value pc : U64} (needs : needsLiteral value pc) :
    moveCount value pc = 1 := if_neg fun plain => plain.2.1 needs

theorem Pool.Inv.step {pool next : Pool} {call : Call} (inv : pool.Inv)
    (aligned : mRx.toNat % 4 = 0) (roomy : pool.Roomy mRx call)
    (stepped : pool.step mRx call = some next) : next.Inv := by
  obtain ⟨out, performed, rfl⟩ := Option.map_eq_some_iff.mp stepped
  rw [Pool.Roomy] at roomy
  cases call with
  | emit instr => exact inv.addAll ((VecSpan.addAll_one ..).trans performed) roomy
  | emitSpan instrs =>
    rw [perform, VecSpan.appendSpan] at performed
    split at performed
    · rename_i room
      cases performed
      exact inv.append room roomy
    · cases performed
  | emitMovImmediate64 reg value =>
    obtain ⟨result, moved, rfl⟩ := Option.map_eq_some_iff.mp performed
    rw [literalOf] at roomy ⊢
    by_cases needs : needsLiteral value (calcCurRxAddr mRx pool.out)
    · rw [if_pos needs] at roomy ⊢
      obtain ⟨room, wide, near⟩ := roomy
      rw [instrCount, moveCount_of_needs needs] at room
      exact inv.move_literal aligned wide room near needs moved
    · rw [if_neg needs] at roomy ⊢
      obtain ⟨words, count, added⟩ := move_plain needs moved
      apply inv.addAll added
      rw [count]
      exact roomy
  | emitBranch target link =>
    obtain ⟨result, branched, rfl⟩ := Option.map_eq_some_iff.mp performed
    rw [literalOf] at roomy ⊢
    rw [emitBranch] at branched
    dsimp only at branched
    rw [instrCount] at roomy
    by_cases near : abs (target - calcCurRxAddr mRx pool.out) ≤ cMaxBranchDistance
    · rw [if_neg (fun far => far.1 near), if_pos near] at roomy
      rw [if_neg (fun far => far.1 near)]
      rw [if_pos near] at branched
      obtain ⟨out, added, rfl⟩ := Option.map_eq_some_iff.mp branched
      exact inv.addAll ((VecSpan.addAll_one ..).trans added) roomy
    rw [if_neg near] at branched
    obtain ⟨⟨movSize, first⟩, moved, rest⟩ := Option.bind_eq_some_iff.mp branched
    obtain ⟨last, added, rfl⟩ := Option.map_eq_some_iff.mp rest
    have one := (VecSpan.addAll_one ..).trans added
    by_cases needs : needsLiteral target (calcCurRxAddr mRx pool.out)
    · rw [if_pos ⟨near, needs⟩, if_neg near] at roomy
      rw [if_pos ⟨near, needs⟩]
      obtain ⟨room, wide, close⟩ := roomy
      rw [moveCount_of_needs needs] at room
      have reserved := inv.move_literal aligned wide (by omega) close needs moved
      apply reserved.addAll one
      intro _
      have out := (Hook.move_literal aligned wide close needs moved).1
      dsimp only at out ⊢
      rw [out, VecSpan.reserve, List.length_singleton]
      dsimp only
      omega
    · rw [if_neg (fun both => needs both.2), if_neg near] at roomy
      rw [if_neg (fun both => needs both.2)]
      obtain ⟨words, count, moves⟩ := move_plain needs moved
      have both : pool.out.addAll (words ++ [if link then cBlr else cBr]) = some last := by
        rw [VecSpan.addAll_append, moves]
        exact one
      apply inv.addAll both
      rw [List.length_append, count, List.length_singleton]
      exact roomy

/-- In every run that leaves room, the literals are apart from the code and from each other, are not
overwritten, and are what their loads load. -/
theorem sound_of_roomy (mRx : Ptr) (aligned : mRx.toNat % 4 = 0) (data : List Instr)
    (calls : List Call) (pool : Pool)
    (roomy : RunMeets (Pool.step mRx) (Pool.Roomy mRx) ⟨⟨data, 0, data.length⟩, []⟩ calls)
    (ran : run (Pool.step mRx) ⟨⟨data, 0, data.length⟩, []⟩ calls = some pool) :
    pool.Sound mRx := by
  have start : Pool.Inv ⟨⟨data, 0, data.length⟩, []⟩ := by
    constructor <;> simp [VecSpan.Whole]
  exact (run_invariant (fun _ _ _ inv roomy stepped => inv.step aligned roomy stepped) start roomy
    ran).sound

/-- A load and a branch to an address that is far away, in a buffer of nine words. -/
theorem sound_of_roomy_two :
    let out : VecSpan := ⟨[0x580000c0, 0x58000070, 0xd61f0200, 0, 0x9abcdef0, 0x12345678,
      0x9abcdef0, 0x12345678, 0], 3, 5⟩
    Pool.Sound 0x1000 ⟨out, [⟨1, 4, 16, 0x123456789abcdef0⟩, ⟨0, 6, 0, 0x123456789abcdef0⟩]⟩ := by
  intro out
  apply sound_of_roomy 0x1000 (by decide) (List.replicate 9 0)
    [.emitMovImmediate64 0 0x123456789abcdef0, .emitBranch 0x123456789abcdef0 false]
  · decide
  · decide

/-- In a buffer of three words the literal is where its load is. -/
theorem not_sound_of_full :
    run (Pool.step 0x1000) ⟨⟨[0, 0, 0], 0, 3⟩, []⟩ [.emitMovImmediate64 0 0x123456789abcdef0] =
        some ⟨⟨[0x9abcdef0, 0x12345678, 0], 1, 1⟩, [⟨0, 0, 0, 0x123456789abcdef0⟩]⟩ ∧
      ¬ Pool.Sound 0x1000
        ⟨⟨[0x9abcdef0, 0x12345678, 0], 1, 1⟩, [⟨0, 0, 0, 0x123456789abcdef0⟩]⟩ :=
  ⟨by decide, fun sound => absurd (sound.apart _ (List.mem_singleton_self _)) (by decide)⟩

end Hakkun.Hook
