import Hakkun.Soundness.LiteralPool

/-! # Code in a buffer with literals

What an emitter adds to a buffer stays there, and so do its literals, as long as the code and the
literals do not meet. So the words of a move or of a branch, executed where they are once the buffer
is full, do what they did alone.
-/

namespace Hakkun.Hook

open A64

/-- The code is below the capacity, and the capacity is within the array. -/
structure VecSpan.Fits (out : VecSpan) : Prop where
  below : out.mSize ≤ out.mCapacity
  whole : out.mCapacity ≤ out.mData.length

/-- Once there are literals, a word is free below them. -/
def VecSpan.Spare (out : VecSpan) : Prop :=
  out.mCapacity < out.mData.length → out.mSize < out.mCapacity

instance (out : VecSpan) : Decidable out.Spare := inferInstanceAs (Decidable (_ → _))

/-- The words of a buffer that are code or literals; the first of these is at the capacity or just
below it. -/
def VecSpan.Used (out : VecSpan) (i : ℕ) : Prop :=
  i < out.mSize ∨ out.mCapacity < out.mData.length ∧ out.mCapacity ≤ i + 1

/-- Data with the code, from an index on, and the literals of a buffer. -/
structure Agrees (start : ℕ) (out : VecSpan) (data : List Instr) : Prop where
  length : data.length = out.mData.length
  used : ∀ i, start ≤ i → out.Used i → data[i]? = out.mData[i]?

theorem Agrees.later {start later : ℕ} {out : VecSpan} {data : List Instr}
    (agrees : Agrees start out data) (le : start ≤ later) : Agrees later out data :=
  ⟨agrees.length, fun i from_ => agrees.used i (Nat.le_trans le from_)⟩

/-- A buffer after something was added to it. -/
structure Grows (out next : VecSpan) : Prop where
  fits : next.Fits
  length : next.mData.length = out.mData.length
  size : out.mSize ≤ next.mSize
  capacity : next.mCapacity ≤ out.mCapacity
  kept : next.Spare → ∀ i, out.Used i → next.mData[i]? = out.mData[i]?

namespace Grows

variable {out next last : VecSpan}

theorem refl (fits : out.Fits) : Grows out out :=
  ⟨fits, rfl, le_rfl, le_rfl, fun _ _ _ => rfl⟩

theorem spare (grows : Grows out next) (spare : next.Spare) : out.Spare := by
  intro literals
  have size := grows.size
  have capacity := grows.capacity
  have length := grows.length
  have free := spare (by omega)
  omega

theorem used (grows : Grows out next) {i : ℕ} (used : out.Used i) : next.Used i := by
  have size := grows.size
  have capacity := grows.capacity
  have length := grows.length
  rcases used with code | ⟨literals, above⟩
  · exact .inl (by omega)
  · exact .inr ⟨by omega, by omega⟩

theorem trans (first : Grows out next) (second : Grows next last) : Grows out last where
  fits := second.fits
  length := second.length.trans first.length
  size := Nat.le_trans first.size second.size
  capacity := Nat.le_trans second.capacity first.capacity
  kept spare i used :=
    (second.kept spare i (first.used used)).trans (first.kept (second.spare spare) i used)

theorem agrees (grows : Grows out next) (spare : next.Spare) {start : ℕ} {data : List Instr}
    (agrees : Agrees start next data) : Agrees start out data where
  length := agrees.length.trans grows.length
  used i behind used := (agrees.used i behind (grows.used used)).trans (grows.kept spare i used)

/-- Words that are added. -/
theorem addAll {words : List Instr} (fits : out.Fits) (added : out.addAll words = some next) :
    next = out.append words ∧ Grows out next := by
  have room := room_of_addAll fits.below added
  have whole := fits.whole
  obtain rfl := Option.some.inj (added.symm.trans (VecSpan.addAll_eq room whole))
  have length := length_append (show out.mSize + words.length ≤ out.mData.length by omega)
  refine ⟨rfl, ⟨room, length.symm ▸ whole⟩, length, Nat.le_add_right _ _, le_rfl, ?_⟩
  intro spare i used
  apply getElem?_append (by omega)
  rcases used with code | ⟨literals, above⟩
  · exact .inl code
  · have free : out.mSize + words.length < out.mCapacity := spare (length.symm ▸ literals)
    exact .inr (by omega)

/-- A literal that is reserved. -/
theorem reserve (fits : out.Fits) (word : Instr) (value : U64)
    (room : out.mSize + 3 ≤ out.mCapacity) : Grows out (out.reserve word value) := by
  have whole := fits.whole
  have length : (out.reserve word value).mData.length = out.mData.length := by
    rw [VecSpan.reserve, List.length_set, List.length_set, List.length_set]
  refine ⟨⟨?_, ?_⟩, length, Nat.le_succ _, Nat.sub_le _ _, ?_⟩
  · change out.mSize + 1 ≤ out.mCapacity - 2
    omega
  · rw [length]
    exact Nat.le_trans (Nat.sub_le _ _) whole
  · intro spare i used
    have free : out.mSize + 1 < out.mCapacity - 2 := spare (by
      rw [length]
      change out.mCapacity - 2 < _
      omega)
    apply (getElem?_reserve word value (by omega) whole).2.2
    rcases used with code | ⟨literals, above⟩
    · exact .inl code
    · exact .inr above

/-- A word of what was added is replaced. -/
theorem patch (grows : Grows out next) {idx : ℕ} (word : Instr) (behind : out.mSize ≤ idx)
    (inside : idx < next.mSize) : Grows out { next with mData := next.mData.set idx word } := by
  have capacity := grows.capacity
  have length : (next.mData.set idx word).length = next.mData.length := List.length_set
  refine ⟨⟨grows.fits.below, ?_⟩, length.trans grows.length, grows.size, capacity, ?_⟩
  · change next.mCapacity ≤ (next.mData.set idx word).length
    rw [length]
    exact grows.fits.whole
  · intro spare i used
    have before : next.Spare := fun literals => spare (length.symm ▸ literals)
    have apart : idx ≠ i := by
      rcases used with code | ⟨literals, above⟩
      · omega
      · have total := grows.length
        have free := before (by omega)
        omega
    exact (List.getElem?_set_ne apart).trans (grows.kept before i used)

end Grows

/-- Words that were added are loaded where they were added. -/
theorem Agrees.loaded {out : VecSpan} {words data : List Instr} {mRx : Ptr}
    {memory : BitVec 64 → Word} (fits : out.Fits)
    (room : out.mSize + words.length ≤ out.mCapacity)
    (agrees : Agrees out.mSize (out.append words) data)
    (loaded : A64.Loaded memory mRx data) : A64.Loaded memory (calcCurRxAddr mRx out) words := by
  have whole := fits.whole
  have front : (out.mData.take out.mSize).length = out.mSize :=
    List.length_take_of_le (by omega)
  intro i word at_
  have inside : i < words.length := (List.getElem?_eq_some_iff.mp at_).1
  have same : data[out.mSize + i]? = some word := by
    rw [agrees.used _ (Nat.le_add_right _ _) (.inl (Nat.add_lt_add_left inside _)),
      VecSpan.append, List.append_assoc, List.getElem?_append_right (by omega), front,
      Nat.add_sub_cancel_left, List.getElem?_append_left inside, at_]
  rw [calcCurRxAddr, cInstrSize, BitVec.add_assoc, ← BitVec.ofNat_add, ← Nat.mul_add]
  exact loaded _ _ same

theorem calcCurRxAddr_append (mRx : Ptr) (out : VecSpan) (words : List Instr) :
    calcCurRxAddr mRx (out.append words) =
      calcCurRxAddr mRx out + BitVec.ofNat 64 (4 * words.length) := by
  rw [calcCurRxAddr, calcCurRxAddr, VecSpan.append, BitVec.add_assoc, ← BitVec.ofNat_add,
    cInstrSize, ← Nat.mul_add]

/-- The address of a word of an aligned buffer. -/
theorem calcCurRxAddr_aligned {mRx : Ptr} (aligned : mRx.toNat % 4 = 0) (out : VecSpan) :
    (calcCurRxAddr mRx out).toNat % 4 = 0 := by
  rw [calcCurRxAddr, BitVec.toNat_add, BitVec.toNat_ofNat, cInstrSize]
  omega

section

variable {mRx : Ptr} {out next : VecSpan}

/-- Words that are emitted, once the buffer has what `data` has, take a state to another one. -/
def Emits (mRx : Ptr) (out next : VecSpan) (post : State → State → Prop) : Prop :=
  ∀ data s, Agrees out.mSize next data → s.pc = calcCurRxAddr mRx out →
    A64.Loaded s.memory mRx data →
    ∃ n t, A64.steps n s = some t ∧ post s t

/-- An emitted run of words is the run of the words alone. -/
theorem emits_of_runs {words : List Instr} {post : State → State → Prop} (fits : out.Fits)
    (added : out.addAll words = some next)
    (runs : ∀ s : State, s.pc = calcCurRxAddr mRx out → ∃ t, Runs words s t ∧ post s t) :
    Grows out next ∧ Emits mRx out next post := by
  obtain ⟨rfl, grows⟩ := Grows.addAll fits added
  refine ⟨grows, ?_⟩
  intro data s agrees pc loaded
  obtain ⟨t, run, holds⟩ := runs s pc
  refine ⟨words.length, t, run ?_, holds⟩
  rw [pc]
  exact agrees.loaded fits (room_of_addAll fits.below added) loaded

/-- A move whose value is in reach is that of an emitter without literals. -/
theorem emitMovImmediate64_of_plain {reg : IRegType} {value : U64}
    (plain : ¬ needsLiteral value (calcCurRxAddr mRx out)) :
    emitMovImmediate64 true mRx out reg value = emitMovImmediate64 false mRx out reg value := by
  rw [emitMovImmediate64, emitMovImmediate64]
  dsimp only
  split
  · rfl
  · split
    · rfl
    · exact absurd ⟨‹_›, ‹_›⟩ plain

/-- A move leaves its value in the register; it takes four words at most. -/
theorem emits_move {reg : IRegType} {value : U64} {result : ℕ × VecSpan} (fits : out.Fits)
    (aligned : mRx.toNat % 4 = 0) (general : General reg) (near : out.mData.length ≤ 2 ^ 18)
    (moved : emitMovImmediate64 true mRx out reg value = some result) :
    Grows out result.2 ∧ result.2.mSize ≤ out.mSize + 4 ∧
      (result.2.Spare → Emits mRx out result.2 fun s t =>
        t = { s with
          registers := s.registers.write (field reg) value
          pc := calcCurRxAddr mRx result.2 }) := by
  have whole := fits.whole
  have below := fits.below
  by_cases needs : needsLiteral value (calcCurRxAddr mRx out)
  · have reach : out.mCapacity - 2 - 1 - out.mSize < 2 ^ 18 := by omega
    obtain ⟨reserved, room⟩ := move_literal aligned general.isX reach needs moved
    rw [reserved]
    refine ⟨.reserve fits _ value room, Nat.add_le_add_left (by decide) _, ?_⟩
    intro spare data s agrees pc loaded
    have literals : (out.reserve (Literal.word ⟨out.mSize, out.mCapacity - 2 - 1, reg, value⟩)
        value).mCapacity < data.length := by
      rw [agrees.length, VecSpan.reserve, List.length_set, List.length_set, List.length_set]
      dsimp only
      omega
    have free : out.mSize + 1 < out.mCapacity - 2 := spare (agrees.length ▸ literals)
    obtain ⟨load, ⟨low, high⟩, -⟩ := getElem?_reserve
      (Literal.word ⟨out.mSize, out.mCapacity - 2 - 1, reg, value⟩) value (by omega) whole
    have loads : LoadsValue mRx data ⟨out.mSize, out.mCapacity - 2 - 1, reg, value⟩ := by
      apply loadsValue_of_stored
      · rw [agrees.used _ le_rfl (.inl (Nat.lt_succ_self _)), load]
      · constructor
        · rw [agrees.used _ ?_ (.inr ⟨agrees.length ▸ literals, ?_⟩)]
          · exact low
          · dsimp only
            omega
          · change out.mCapacity - 2 ≤ out.mCapacity - 2 - 1 + 1
            omega
        · rw [agrees.used _ ?_ (.inr ⟨agrees.length ▸ literals, ?_⟩)]
          · exact high
          · dsimp only
            omega
          · change out.mCapacity - 2 ≤ out.mCapacity - 2 - 1 + 1 + 1
            omega
      · dsimp only
        omega
      · exact reach
    have stepped := loads s pc loaded
    dsimp only at stepped
    rw [general.encodedRegister] at stepped
    refine ⟨1, _, (show (step s).bind some = _ by rw [stepped]; rfl), ?_⟩
    have after : s.pc + 4 = calcCurRxAddr mRx
        (out.reserve (Literal.word ⟨out.mSize, out.mCapacity - 2 - 1, reg, value⟩) value) := by
      rw [pc, calcCurRxAddr, calcCurRxAddr, VecSpan.reserve, cInstrSize, Nat.mul_succ,
        BitVec.ofNat_add, ← BitVec.add_assoc]
      rfl
    rw [State.set, after]
  · rw [emitMovImmediate64_of_plain needs, emitMovImmediate64_eq general] at moved
    obtain ⟨next, added, rfl⟩ := Option.map_eq_some_iff.mp moved
    have emitted : Grows out next ∧ Emits mRx out next fun s t => t = { s with
        registers := s.registers.write (field reg) value
        pc := calcCurRxAddr mRx next } := by
      apply emits_of_runs fits added
      intro s pc
      refine ⟨_, (leaves_moveWords general value _ s pc).1, ?_⟩
      rw [(Grows.addAll fits added).1, calcCurRxAddr_append, ← pc]
      rfl
    refine ⟨emitted.1, ?_, fun _ => emitted.2⟩
    rw [addAll_size added]
    exact Nat.add_le_add_left (length_moveWords ..) _

/-- Words that follow others in the buffer. -/
theorem Emits.trans {middle : VecSpan} {first second : State → State → Prop}
    (start : Emits mRx out middle first) (rest : Emits mRx middle next second)
    (le : out.mSize ≤ middle.mSize) (grows : Grows middle next) (spare : next.Spare)
    (ends : ∀ s t, first s t → t.pc = calcCurRxAddr mRx middle ∧ t.memory = s.memory) :
    Emits mRx out next fun s u => ∃ t, first s t ∧ second t u := by
  intro data s agrees pc loaded
  obtain ⟨n, t, ran, one⟩ := start data s (grows.agrees spare agrees) pc loaded
  obtain ⟨after, memory⟩ := ends s t one
  rw [← memory] at loaded
  obtain ⟨m, u, went, two⟩ := rest data t (agrees.later le) after loaded
  refine ⟨n + m, u, ?_, t, one, two⟩
  rw [steps_add, ran, Option.bind_some, went]

theorem Emits.imp {first second : State → State → Prop} (emits : Emits mRx out next first)
    (weaker : ∀ s t, s.pc = calcCurRxAddr mRx out → first s t → second s t) :
    Emits mRx out next second := by
  intro data s agrees pc loaded
  obtain ⟨n, t, ran, holds⟩ := emits data s agrees pc loaded
  exact ⟨n, t, ran, weaker s t pc holds⟩

/-- The registers at the target of a branch. -/
def atTarget (registers : Registers) (scratch : U64) (link : Bool) (returnTo : Ptr) : Registers :=
  if link then (registers.write (field IP0) scratch).write 30 returnTo
  else registers.write (field IP0) scratch

/-- A branch leads to its target; it takes five words at most. -/
theorem emits_branch {target : Ptr} {link : Bool} {result : ℕ × VecSpan} (fits : out.Fits)
    (aligned : mRx.toNat % 4 = 0) (whole : target.toNat % 4 = 0)
    (near : out.mData.length ≤ 2 ^ 18)
    (emitted : emitBranch true mRx out target link = some result) :
    Grows out result.2 ∧ out.mSize < result.2.mSize ∧ result.2.mSize ≤ out.mSize + 5 ∧
      (result.2.Spare → Emits mRx out result.2 fun s t => ∃ scratch,
        t = { s with
          registers := atTarget s.registers scratch link (calcCurRxAddr mRx result.2)
          pc := target }) := by
  have start := calcCurRxAddr_aligned aligned out
  have distance : (target - calcCurRxAddr mRx out).toNat % 4 = 0 := by
    rw [BitVec.toNat_sub]
    omega
  rw [emitBranch] at emitted
  dsimp only at emitted
  split at emitted
  · rename_i reach
    obtain ⟨next, added, rfl⟩ := Option.map_eq_some_iff.mp emitted
    rw [← VecSpan.addAll_one] at added
    have emits : Grows out next ∧ Emits mRx out next fun s t => ∃ scratch, t = { s with
        registers := atTarget s.registers scratch link (calcCurRxAddr mRx next)
        pc := target } := by
      apply emits_of_runs fits added
      intro s pc
      rw [← pc] at distance reach
      have run := runs_branch distance reach link
      rw [pc] at run
      refine ⟨_, run, s.registers (field IP0), ?_⟩
      rw [atTarget, Registers.write_self, (Grows.addAll fits added).1, calcCurRxAddr_append, ← pc]
      cases link <;> rfl
    have size := addAll_size added
    rw [List.length_singleton] at size
    exact ⟨emits.1, by dsimp only; omega, by dsimp only; omega, fun _ => emits.2⟩
  · obtain ⟨⟨movSize, middle⟩, moved, rest⟩ := Option.bind_eq_some_iff.mp emitted
    obtain ⟨next, added, rfl⟩ := Option.map_eq_some_iff.mp rest
    obtain ⟨first, few, move⟩ := emits_move fits aligned general_IP0 near moved
    rw [← VecSpan.addAll_one] at added
    have last : Grows middle next ∧ Emits mRx middle next fun s t => t = { s with
        registers := if link then s.registers.write 30 (calcCurRxAddr mRx next) else s.registers
        pc := s.registers (field IP0) } := by
      apply emits_of_runs first.fits added
      intro s pc
      refine ⟨_, runs_br s link, ?_⟩
      rw [(Grows.addAll first.fits added).1, calcCurRxAddr_append, ← pc]
      cases link <;> rfl
    have size := addAll_size added
    have behind := first.size
    rw [List.length_singleton] at size
    dsimp only at size few behind
    refine ⟨first.trans last.1, by dsimp only; omega, by dsimp only; omega, ?_⟩
    intro spare
    apply Emits.imp
      ((move (last.1.spare spare)).trans last.2 first.size last.1 spare ?_)
    · rintro s u - ⟨t, rfl, rfl⟩
      refine ⟨target, ?_⟩
      dsimp only
      rw [Registers.write_same, atTarget]
    · rintro s t rfl
      exact ⟨rfl, rfl⟩

end

end Hakkun.Hook
