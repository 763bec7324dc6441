import Hakkun.Machine.Core.Ledger
import Hakkun.Model.Container.Buffer
import Hakkun.Soundness.VecBlocks

/-! # Who frees the blocks of buffers

A heap of blocks and objects says which events are right: a block that is allocated is freed once,
after its objects, and an object is constructed in its storage before it is assigned to, read or
destroyed. Nothing that is allocated may be left without a buffer that holds it. A buffer that
already holds a block loses it when it gets another one, `setCopy` assigns to objects that were
never constructed, and the bytes of a block are computed without a look at the overflow.
-/

namespace Hakkun.Container

open Machine Util

/-! ## The heap -/

inductive Block where
  | unknown
  | allocated (bytes : ℕ)
  | freed
  deriving DecidableEq

def Block.bytes : Block → ℕ
  | .allocated bytes => bytes
  | .unknown | .freed => 0

/-- What became of every block, and where there are objects. -/
structure Heap where
  blocks : ℕ → Block
  alive : Address → Bool

namespace Heap

variable {T : Type} (type : ElementType) (heap : Heap)

/-- Before anything was allocated. -/
def empty : Heap := ⟨fun _ => .unknown, fun _ => false⟩

def setBlock (block : ℕ) (state : Block) : Heap :=
  { heap with blocks := Function.update heap.blocks block state }

def setAlive (place : Address) (state : Bool) : Heap :=
  { heap with alive := Function.update heap.alive place state }

/-- The storage of an object is in a block that is allocated. -/
def Room (place : Address) : Prop := (place.2 + 1) * type.sizeOf ≤ (heap.blocks place.1).bytes

instance (place : Address) : Decidable (heap.Room type place) :=
  inferInstanceAs (Decidable (_ ≤ _))

/-- What a reference refers to is an object. -/
def Readable : Reference T → Prop
  | .temporary _ => True
  | .element place => heap.alive place = true

instance : DecidablePred (heap.Readable (T := T))
  | .temporary _ => inferInstanceAs (Decidable True)
  | .element place => inferInstanceAs (Decidable (heap.alive place = true))

/-- The heap after an event that is right. -/
def record : BufferEvent T → Option Heap
  | .allocate block bytes _ => some (heap.setBlock block (.allocated bytes))
  | .construct place value =>
    if heap.Room type place ∧ heap.alive place = false ∧ heap.Readable value then
      some (heap.setAlive place true)
    else none
  | .assign place value =>
    if heap.Room type place ∧ (heap.alive place = true ∨ type.trivial = true) ∧
        heap.Readable value then
      some (heap.setAlive place true)
    else none
  | .destroy place => if heap.alive place = true then some (heap.setAlive place false) else none
  | .free block =>
    match heap.blocks block with
    | .allocated bytes =>
      if ∀ i < bytes, heap.alive (block, i) = false then some (heap.setBlock block .freed) else none
    | .unknown | .freed => none

/-- The allocator returns a new block. -/
def CanGive : BufferEvent T → Prop
  | .allocate block _ _ => block ≠ 0 ∧ heap.blocks block = .unknown
  | _ => True

instance : DecidablePred (heap.CanGive (T := T))
  | .allocate block _ _ => inferInstanceAs (Decidable (block ≠ 0 ∧ heap.blocks block = .unknown))
  | .construct .. | .assign .. | .destroy _ | .free _ => inferInstanceAs (Decidable True)

end Heap

/-! ## Correct calls -/

/-- Every block that is allocated is held by a buffer. -/
def Held {Var : Type} (buffers : Buffers Var) (heap : Heap) : Prop :=
  ∀ block bytes, heap.blocks block = .allocated bytes →
    ∃ var buffer, buffers var = some buffer ∧ buffer.mData = block

variable {Var T : Type} [DecidableEq Var] (type : ElementType)

/-- The buffers are audited by the heap. -/
def bufferAudit (Var T : Type) [DecidableEq Var] (type : ElementType) :
    Audit (Buffers Var) (BufferCall Var T) (BufferEvent T) Heap where
  perform buffers call := (buffers.call type call).map fun done => (done.1, some done.2.1)
  record := Heap.record type
  CanGive := Heap.CanGive
  decidableCanGive _ := inferInstance
  Accounted := Held

/-- The buffers that a call starts from: a constructor has an empty one. -/
def Buffers.begun (buffers : Buffers Var) : BufferCall Var T → Buffers Var
  | .copyConstruct var _ _ | .constructSpan var _ _ => Function.update buffers var (some {})
  | _ => buffers

/-- Buffers and the heap. -/
abbrev Program (Var : Type) := Buffers Var × Heap

namespace Program

/-- No buffer exists and nothing was allocated. -/
def start (Var : Type) : Program Var := (fun _ => none, .empty)

/-- A call that fails does nothing. -/
def Keeps (program : Program Var) (call : BufferCall Var T) : Prop :=
  ∀ events buffers result, program.1.call type call = some (events, buffers, result) →
    result ≠ .success → events = [] ∧ buffers = program.1.begun call

/-- A call does with blocks and objects what it may, and nothing if it fails. -/
def Correct (program : Program Var) (call : BufferCall Var T) : Prop :=
  (bufferAudit Var T type).Correct program call ∧ program.Keeps type call

/-- As many objects can be made by assignments to new storage. -/
def Assignable (size : ℕ) : Prop :=
  size = 0 ∨ type.trivial = true ∧ size * type.sizeOf < 2 ^ 64

/-- What a call needs of its buffer and of a size. -/
def Needs (program : Program Var) : BufferCall Var T → Prop
  | .construct _ | .moveConstruct .. | .freeBuffer _ | .destruct _ => True
  | .copyConstruct _ other granted =>
    granted = none ∨ Assignable type (program.1.size other)
  | .constructSpan _ data granted => granted = none ∨ Assignable type data.size
  | .allocBuffer var size _ _ granted =>
    granted = none ∨ (program.1.get var).mData = 0 ∧ size * type.sizeOf < 2 ^ 64
  | .setCopy var data granted =>
    granted = none ∨ (program.1.get var).mData = 0 ∧ Assignable type data.size

/-- A call is not possible or has what it needs. -/
def Careful (program : Program Var) (call : BufferCall Var T) : Prop :=
  ((bufferAudit Var T type).conduct program call).isSome = true → program.Needs type call

end Program

/-! ## New objects -/

namespace Heap

variable {type} {heap : Heap} {block : ℕ}

/-- Objects below a bound of a block. -/
def filled (heap : Heap) (block amount : ℕ) : Heap where
  blocks := heap.blocks
  alive place := decide (place.1 = block ∧ place.2 < amount) || heap.alive place

theorem alive_filled {amount : ℕ} {place : Address} : (heap.filled block amount).alive place = true ↔
    (place.1 = block ∧ place.2 < amount) ∨ heap.alive place = true := by
  rw [filled, Bool.or_eq_true, decide_eq_true_iff]

theorem filled_zero : heap.filled block 0 = heap := by
  rcases heap with ⟨blocks, alive⟩
  refine congrArg (Heap.mk blocks) (funext fun place => ?_)
  rw [decide_eq_false fun inside => Nat.not_lt_zero _ inside.2, Bool.false_or]

theorem filled_succ (amount : ℕ) :
    (heap.filled block amount).setAlive (block, amount) true = heap.filled block (amount + 1) := by
  refine congrArg (Heap.mk heap.blocks) (funext fun place => ?_)
  rw [Bool.eq_iff_iff]
  by_cases last : place = (block, amount)
  · subst last
    simp [filled]
  · have apart : place.1 = block → place.2 ≠ amount := fun one two => last (Prod.ext one two)
    rw [Function.update_of_ne last, alive_filled]
    refine Iff.trans ?_ alive_filled.symm
    refine or_congr_left (and_congr_right fun here => ?_)
    have := apart here
    omega

/-- A constructor or an assignment. -/
def fills (constructs : Bool) (place : Address) (value : Reference T) : BufferEvent T :=
  if constructs then .construct place value else .assign place value

theorem record_fills {place : Address} {value : Reference T} (constructs : Bool)
    (new : heap.alive place = false) (readable : heap.Readable value) :
    heap.record type (fills constructs place value) =
      if heap.Room type place ∧ (constructs = true ∨ type.trivial = true) then
        some (heap.setAlive place true)
      else none := by
  cases constructs with
  | true => exact if_congr (and_congr_right fun _ => iff_of_true ⟨new, readable⟩ (.inl rfl)) rfl rfl
  | false =>
    refine if_congr (and_congr_right fun _ => ?_) rfl rfl
    rw [and_iff_left readable, new]

/-- The objects of a block that has none, one after the other. -/
theorem recordAll_fills (constructs : Bool) {amount : ℕ} {value : ℕ → Reference T}
    (new : ∀ i, heap.alive (block, i) = false) (readable : ∀ i < amount, heap.Readable (value i)) :
    (bufferAudit Var T type).recordAll heap
        ((List.range amount).map fun i => fills constructs (block, i) (value i)) =
      if amount = 0 ∨ (constructs = true ∨ type.trivial = true) ∧
          amount * type.sizeOf ≤ (heap.blocks block).bytes then
        some (heap.filled block amount)
      else none := by
  induction amount with
  | zero =>
    rw [if_pos (.inl rfl), filled_zero]
    rfl
  | succ amount ih =>
    rw [List.range_succ, List.map_append, Audit.recordAll_append,
      ih fun i bound => readable i (Nat.lt_succ_of_lt bound)]
    have more : amount * type.sizeOf ≤ (amount + 1) * type.sizeOf :=
      Nat.mul_le_mul_right _ (Nat.le_succ amount)
    split
    · have next : (heap.filled block amount).alive (block, amount) = false := by
        rw [Bool.eq_false_iff, Ne, alive_filled, new]
        simp
      have source : (heap.filled block amount).Readable (value amount) := by
        have before := readable amount (Nat.lt_succ_self amount)
        cases source : value amount with
        | temporary value => trivial
        | element place =>
          rw [source] at before
          exact alive_filled.mpr (.inr before)
      have recorded : (heap.filled block amount).record type
          (fills constructs (block, amount) (value amount)) = _ :=
        record_fills constructs next source
      rw [filled_succ] at recorded
      rw [Option.bind_some, List.map_singleton, Audit.recordAll_cons]
      change ((heap.filled block amount).record type _).bind _ = _
      rw [recorded]
      by_cases fits : (heap.filled block amount).Room type (block, amount) ∧
          (constructs = true ∨ type.trivial = true)
      · rw [if_pos fits, if_pos (.inr ⟨fits.2, fits.1⟩)]
        rfl
      · rw [if_neg fits, if_neg fun all => fits ?_]
        · rfl
        · exact (all.resolve_left (Nat.succ_ne_zero amount)).symm
    · rename_i stopped
      rw [if_neg fun all => stopped ?_]
      · rfl
      · obtain ⟨right, within⟩ := all.resolve_left (Nat.succ_ne_zero amount)
        exact .inr ⟨right, Nat.le_trans more within⟩

/-! ## The end of objects -/

/-- No objects below a bound of a block. -/
def emptied (heap : Heap) (block amount : ℕ) : Heap where
  blocks := heap.blocks
  alive place := !decide (place.1 = block ∧ place.2 < amount) && heap.alive place

theorem alive_emptied {amount : ℕ} {place : Address} :
    (heap.emptied block amount).alive place = true ↔
      ¬ (place.1 = block ∧ place.2 < amount) ∧ heap.alive place = true := by
  rw [emptied, Bool.and_eq_true, Bool.not_eq_true', decide_eq_false_iff_not]

theorem emptied_zero : heap.emptied block 0 = heap := by
  rcases heap with ⟨blocks, alive⟩
  refine congrArg (Heap.mk blocks) (funext fun place => ?_)
  rw [decide_eq_false fun inside => Nat.not_lt_zero _ inside.2, Bool.not_false, Bool.true_and]

theorem emptied_succ (amount : ℕ) :
    (heap.emptied block amount).setAlive (block, amount) false = heap.emptied block (amount + 1) := by
  refine congrArg (Heap.mk heap.blocks) (funext fun place => ?_)
  rw [Bool.eq_iff_iff]
  by_cases last : place = (block, amount)
  · subst last
    simp
  · have apart : place.1 = block → place.2 ≠ amount := fun one two => last (Prod.ext one two)
    rw [Function.update_of_ne last, alive_emptied]
    refine Iff.trans ?_ alive_emptied.symm
    refine and_congr_left' (not_congr (and_congr_right fun here => ?_))
    have := apart here
    omega

/-- A block is freed after its objects. -/
theorem recordAll_release {amount bytes : ℕ} (allocated : heap.blocks block = .allocated bytes)
    (objects : ∀ i, heap.alive (block, i) = true ↔ i < amount) :
    (bufferAudit Var T type).recordAll heap
        ((List.range amount).map (fun i => .destroy (block, i)) ++ [.free block]) =
      some ((heap.emptied block amount).setBlock block .freed) := by
  have destroyed : (bufferAudit Var T type).recordAll heap
      ((List.range amount).map fun i => .destroy (block, i)) =
        some (heap.emptied block amount) := by
    have right (i : ℕ) (bound : i < amount) :
        (bufferAudit Var T type).record (heap.emptied block i) (.destroy (block, i)) =
          some (heap.emptied block (i + 1)) := by
      change (heap.emptied block i).record type (.destroy (block, i) : BufferEvent T) = _
      rw [record, if_pos, emptied_succ]
      exact alive_emptied.mpr ⟨fun inside => Nat.lt_irrefl i inside.2, (objects i).mpr bound⟩
    have all : (bufferAudit Var T type).recordAll (heap.emptied block 0) _ = _ :=
      Audit.recordAll_range_map right
    rwa [emptied_zero] at all
  rw [Audit.recordAll_append, destroyed, Option.bind_some, Audit.recordAll_cons]
  have none (i : ℕ) : (heap.emptied block amount).alive (block, i) = false := by
    rw [Bool.eq_false_iff, Ne, alive_emptied, objects]
    rintro ⟨outside, bound⟩
    exact outside ⟨rfl, bound⟩
  have freed : (heap.emptied block amount).record type (.free block : BufferEvent T) =
      some ((heap.emptied block amount).setBlock block .freed) := by
    rw [record, show (heap.emptied block amount).blocks block = .allocated bytes from allocated]
    exact if_pos fun i _ => none i
  change ((heap.emptied block amount).record type (.free block : BufferEvent T)).bind _ = _
  rw [freed]
  rfl

end Heap

/-! ## What buffers know of the heap -/

/-- A buffer has a block that is allocated or none, and objects below its size. -/
structure Buffer.Filled (buffer : Buffer) (heap : Heap) : Prop where
  held : buffer.mData ≠ 0 → ∃ bytes, heap.blocks buffer.mData = .allocated bytes
  alive : ∀ i, heap.alive (buffer.mData, i) = true ↔ i < buffer.mSize

namespace Program

structure Inv (program : Program Var) : Prop where
  null : program.2.blocks 0 = .unknown
  room : ∀ place, program.2.alive place = true → program.2.Room type place
  filled : ∀ var buffer, program.1 var = some buffer → buffer.Filled program.2
  apart : ∀ var other buffer otherBuffer, program.1 var = some buffer →
    program.1 other = some otherBuffer → var ≠ other → buffer.mData = otherBuffer.mData →
      buffer.mData = 0

namespace Inv

variable {type} {program : Program Var} (inv : program.Inv type)
include inv

omit [DecidableEq Var] in
/-- There is no object where nothing is allocated. -/
theorem not_alive {block : ℕ} (absent : program.2.blocks block = .unknown) (i : ℕ) :
    program.2.alive (block, i) = false := by
  rw [Bool.eq_false_iff]
  intro alive
  have room : (i + 1) * type.sizeOf ≤ (program.2.blocks block).bytes := inv.room _ alive
  rw [absent] at room
  exact absurd room (Nat.not_le.mpr (Nat.mul_pos (Nat.succ_pos i) type.sizeOf_pos))

omit [DecidableEq Var] in
theorem filled_empty : ({} : Buffer).Filled program.2 where
  held nonzero := absurd rfl nonzero
  alive i := by
    rw [inv.not_alive inv.null i]
    exact iff_of_false Bool.false_ne_true (Nat.not_lt_zero i)

omit [DecidableEq Var] in
theorem filled_get (var : Var) : (program.1.get var).Filled program.2 := by
  rw [Buffers.get]
  cases there : program.1 var with
  | none => exact inv.filled_empty
  | some buffer => exact inv.filled var buffer there

omit [DecidableEq Var] in
/-- A buffer without a block is empty. -/
theorem eq_empty {buffer : Buffer} (filled : buffer.Filled program.2) (null : buffer.mData = 0) :
    buffer = {} := by
  obtain ⟨data, size⟩ := buffer
  obtain rfl : data = 0 := null
  have none (i : ℕ) : ¬ i < size := fun bound => by
    have alive := (filled.alive i).mpr bound
    rw [inv.not_alive inv.null i] at alive
    cases alive
  obtain rfl : size = 0 := Nat.eq_zero_of_not_pos (none 0)
  rfl

omit [DecidableEq Var] in
theorem readable {operand : Operand Var T} (allowed : operand.Allowed program.1.size) :
    program.2.Readable (program.1.reference operand) := by
  cases operand with
  | value given => trivial
  | element var index => exact ((inv.filled_get var).alive index).mpr allowed

omit [DecidableEq Var] in
theorem readable_span {data : SpanOperand Var T} (allowed : data.Allowed program.1.size) (i : ℕ)
    (bound : i < data.size) : program.2.Readable ((program.1.span data).data i) := by
  obtain ⟨operand, found, allowed', -⟩ := SpanOperand.get_of_allowed allowed bound
  change program.2.Readable (((data.get i).map program.1.reference).getD _)
  rw [found]
  exact inv.readable allowed'

end Inv

/-! ## Single calls -/

variable {type} {program : Program Var}

section Fill

variable {block amount bytes : ℕ} (given : block ≠ 0 ∧ program.2.blocks block = .unknown)

omit [DecidableEq Var] in
/-- What is allocated next to a new block was allocated before. -/
theorem allocated_of_ne {other bytes' : ℕ} (different : other ≠ block)
    (allocated : ((program.2.setBlock block (.allocated bytes)).filled block amount).blocks other =
      .allocated bytes') : program.2.blocks other = .allocated bytes' :=
  (Function.update_of_ne different _ _).symm.trans allocated

include given

omit [DecidableEq Var] in
/-- A block that can be given is in no buffer. -/
theorem ne_of_given {buffer : Buffer} (filled : buffer.Filled program.2) : buffer.mData ≠ block := by
  rintro rfl
  obtain ⟨bytes, allocated⟩ := filled.held given.1
  cases given.2.symm.trans allocated

/-- A buffer can be given a new block if it holds none. -/
theorem held_fill_iff (held : Held program.1 program.2) (inv : program.Inv type) (var : Var) :
    Held (Function.update program.1 var (some ⟨block, amount⟩))
        ((program.2.setBlock block (.allocated bytes)).filled block amount) ↔
      (program.1.get var).mData = 0 := by
  constructor
  · intro after
    by_contra nonzero
    obtain ⟨buffer, there⟩ : ∃ buffer, program.1 var = some buffer := by
      refine Option.ne_none_iff_exists'.mp fun absent => nonzero ?_
      rw [Buffers.get, absent]
      rfl
    rw [Buffers.get, there, Option.getD_some] at nonzero
    obtain ⟨bytes', allocated⟩ := (inv.filled var buffer there).held nonzero
    have different := ne_of_given given (inv.filled var buffer there)
    obtain ⟨other, otherBuffer, found, same⟩ :=
      after buffer.mData bytes' ((Function.update_of_ne different _ _).trans allocated)
    by_cases here : other = var
    · subst here
      rw [Function.update_self] at found
      obtain rfl := Option.some.inj found
      exact different same.symm
    · rw [Function.update_of_ne here] at found
      exact nonzero (inv.apart var other buffer otherBuffer there found (Ne.symm here) same.symm)
  · intro null other bytes' allocated
    by_cases new : other = block
    · exact ⟨var, ⟨block, amount⟩, Function.update_self _ _ _, new.symm⟩
    · have before := allocated_of_ne new allocated
      obtain ⟨owner, buffer, found, same⟩ := held other bytes' before
      refine ⟨owner, buffer, (Function.update_of_ne ?_ _ _).trans found, same⟩
      rintro rfl
      rw [Buffers.get, found, Option.getD_some] at null
      rw [← same, null, inv.null] at before
      cases before

/-- A new block, and objects in it. -/
theorem recordAll_fill (inv : program.Inv type) (align : ℕ) (constructs : Bool)
    {value : ℕ → Reference T} (readable : ∀ i < amount, program.2.Readable (value i)) :
    (bufferAudit Var T type).recordAll program.2 (.allocate block bytes align ::
        (List.range amount).map fun i => Heap.fills constructs (block, i) (value i)) =
      if amount = 0 ∨ (constructs = true ∨ type.trivial = true) ∧ amount * type.sizeOf ≤ bytes then
        some ((program.2.setBlock block (.allocated bytes)).filled block amount)
      else none := by
  have size : ((program.2.setBlock block (.allocated bytes)).blocks block).bytes = bytes := by
    change (Function.update program.2.blocks block (.allocated bytes) block).bytes = bytes
    rw [Function.update_self]
    rfl
  have recorded : (bufferAudit Var T type).recordAll program.2 (.allocate block bytes align ::
      (List.range amount).map fun i => Heap.fills constructs (block, i) (value i)) = _ :=
    Heap.recordAll_fills constructs (inv.not_alive given.2) readable
  rw [size] at recorded
  exact recorded

/-- What a buffer that gets a new block with objects has to be, and the size of that. -/
theorem shows_fill_iff (held : Held program.1 program.2) (inv : program.Inv type) (var : Var)
    (align : ℕ) (constructs : Bool) {value : ℕ → Reference T}
    (readable : ∀ i < amount, program.2.Readable (value i)) :
    (bufferAudit Var T type).Shows program.2
        (.allocate block bytes align ::
          (List.range amount).map fun i => Heap.fills constructs (block, i) (value i))
        (some (Function.update program.1 var (some ⟨block, amount⟩))) ↔
      (program.1.get var).mData = 0 ∧ (amount = 0 ∨
        (constructs = true ∨ type.trivial = true) ∧ amount * type.sizeOf ≤ bytes) := by
  have accounted : Held (Function.update program.1 var (some ⟨block, amount⟩))
      ((program.2.setBlock block (.allocated bytes)).filled block amount) ↔ _ :=
    held_fill_iff given held inv var
  rw [Audit.Shows, recordAll_fill given inv align constructs readable]
  constructor
  · rintro ⟨after, right, left⟩
    obtain ⟨needs, same⟩ := Option.ite_none_right_eq_some.mp right
    obtain rfl := Option.some.inj same
    exact ⟨accounted.mp (left _ rfl), needs⟩
  · rintro ⟨null, needs⟩
    refine ⟨_, if_pos needs, ?_⟩
    rintro _ ⟨⟩
    exact accounted.mpr null

/-- The bytes for new objects are computed with 64 bits. -/
theorem shows_fill_wrap_iff (held : Held program.1 program.2) (inv : program.Inv type) (var : Var)
    (align : ℕ) (constructs : Bool) {value : ℕ → Reference T}
    (readable : ∀ i < amount, program.2.Readable (value i)) :
    (bufferAudit Var T type).Shows program.2
        (.allocate block (amount * type.sizeOf % 2 ^ 64) align ::
          (List.range amount).map fun i => Heap.fills constructs (block, i) (value i))
        (some (Function.update program.1 var (some ⟨block, amount⟩))) ↔
      (program.1.get var).mData = 0 ∧ (amount = 0 ∨
        (constructs = true ∨ type.trivial = true) ∧ amount * type.sizeOf < 2 ^ 64) := by
  have fits : amount * type.sizeOf ≤ amount * type.sizeOf % 2 ^ 64 ↔
      amount * type.sizeOf < 2 ^ 64 := by
    constructor
    · intro within
      exact lt_of_le_of_lt within (Nat.mod_lt _ (by decide))
    · intro small
      exact (Nat.mod_eq_of_lt small).ge
  rw [shows_fill_iff given held inv var align constructs readable, fits]

end Fill

section Release

variable (held : Held program.1 program.2)
include held

/-- A new buffer without a block. -/
theorem held_new {var : Var} (free : program.1 var = none) (value : Option Buffer) :
    Held (Function.update program.1 var value) program.2 := by
  intro block bytes allocated
  obtain ⟨owner, buffer, found, same⟩ := held block bytes allocated
  refine ⟨owner, buffer, (Function.update_of_ne ?_ _ _).trans found, same⟩
  rintro rfl
  cases free.symm.trans found

/-- A block goes from one buffer to a new one. -/
theorem held_move {var old : Var} (free : program.1 var = none) (there : program.1 old ≠ none) :
    Held (Function.update (Function.update program.1 var (some (program.1.get old))) old (some {}))
      program.2 := by
  have apart : var ≠ old := fun same => there (same ▸ free)
  intro block bytes allocated
  obtain ⟨owner, buffer, found, same⟩ := held block bytes allocated
  by_cases moved : owner = old
  · subst moved
    refine ⟨var, buffer, ?_, same⟩
    rw [Function.update_of_ne apart, Function.update_self, Buffers.get, found, Option.getD_some]
  · refine ⟨owner, buffer, ?_, same⟩
    rw [Function.update_of_ne moved, Function.update_of_ne, found]
    rintro rfl
    cases free.symm.trans found

variable {var : Var} {buffer : Buffer} (there : program.1 var = some buffer)
include there

theorem held_release {after : Heap} (kept : ∀ block bytes, after.blocks block = .allocated bytes →
      block ≠ buffer.mData ∧ program.2.blocks block = .allocated bytes) (value : Option Buffer) :
    Held (Function.update program.1 var value) after := by
  intro block bytes allocated
  obtain ⟨different, before⟩ := kept block bytes allocated
  obtain ⟨owner, ownerBuffer, found, same⟩ := held block bytes before
  refine ⟨owner, ownerBuffer, (Function.update_of_ne ?_ _ _).trans found, same⟩
  rintro rfl
  obtain rfl := Option.some.inj (there.symm.trans found)
  exact different same.symm

/-- What a buffer holds is freed. -/
theorem shows_release (inv : program.Inv type) (value : Option Buffer) :
    (bufferAudit Var T type).Shows program.2 buffer.freeBuffer.1
      (some (Function.update program.1 var value)) := by
  rw [Buffer.freeBuffer]
  split
  · rename_i nonzero
    have filled := inv.filled var buffer there
    obtain ⟨bytes, allocated⟩ := filled.held nonzero
    refine ⟨_, Heap.recordAll_release allocated filled.alive, ?_⟩
    rintro _ ⟨⟩
    refine held_release held there (fun block bytes' after => ?_) value
    by_cases same : block = buffer.mData
    · subst same
      cases (Function.update_self _ _ _).symm.trans after
    · exact ⟨same, (Function.update_of_ne same _ _).symm.trans after⟩
  · rename_i null
    apply Audit.shows_nil
    refine held_release held there (fun block bytes allocated => ⟨?_, allocated⟩) value
    rintro rfl
    rw [not_not.mp null, inv.null] at allocated
    cases allocated

end Release

omit [DecidableEq Var] in
theorem exists_of_get {var : Var} (there : program.1 var ≠ none) :
    program.1 var = some (program.1.get var) := by
  obtain ⟨buffer, found⟩ := Option.ne_none_iff_exists'.mp there
  rw [Buffers.get, found, Option.getD_some]

theorem update_get {var : Var} (there : program.1 var ≠ none) :
    Function.update program.1 var (some (program.1.get var)) = program.1 := by
  rw [← exists_of_get there, Function.update_eq_self]

/-- A call that fails has no events and leaves the buffers. -/
theorem keeps (program : Program Var) (call : BufferCall Var T) : program.Keeps type call := by
  intro events buffers result performed failed
  cases call with
  | construct var =>
    obtain ⟨-, same⟩ := Option.ite_none_right_eq_some.mp performed
    cases same
    exact absurd rfl failed
  | copyConstruct var other granted =>
    obtain ⟨-, same⟩ := Option.ite_none_right_eq_some.mp performed
    cases granted <;> cases same
    · exact ⟨rfl, rfl⟩
    · exact absurd rfl failed
  | moveConstruct var old =>
    obtain ⟨-, same⟩ := Option.ite_none_right_eq_some.mp performed
    cases same
    exact absurd rfl failed
  | constructSpan var data granted =>
    obtain ⟨-, same⟩ := Option.ite_none_right_eq_some.mp performed
    cases granted <;> cases same
    · exact ⟨rfl, rfl⟩
    · exact absurd rfl failed
  | allocBuffer var size value align granted =>
    obtain ⟨⟨there, -⟩, same⟩ := Option.ite_none_right_eq_some.mp performed
    cases granted <;> cases same
    · exact ⟨rfl, update_get there⟩
    · exact absurd rfl failed
  | freeBuffer var =>
    obtain ⟨there, same⟩ := Option.ite_none_right_eq_some.mp performed
    rw [Buffers.place, Buffer.freeBuffer] at same
    split at same
    · cases same
      exact absurd rfl failed
    · cases same
      exact ⟨rfl, update_get there⟩
  | setCopy var data granted =>
    obtain ⟨⟨there, -⟩, same⟩ := Option.ite_none_right_eq_some.mp performed
    cases granted <;> cases same
    · exact ⟨rfl, update_get there⟩
    · exact absurd rfl failed
  | destruct var =>
    obtain ⟨-, same⟩ := Option.ite_none_right_eq_some.mp performed
    cases same
    exact absurd rfl failed

/-- What `setCopy` needs; a block that is not granted changes nothing. -/
theorem shows_setCopy_iff (held : Held program.1 program.2) (inv : program.Inv type) {var : Var}
    {buffer : Buffer} (start : Held (Function.update program.1 var (some buffer)) program.2)
    {data : Util.Span T} (readable : ∀ i < data.size, program.2.Readable (data.data i))
    {granted : Option ℕ}
    (gives : ∀ event ∈ (buffer.setCopy type data granted).1, program.2.CanGive event) :
    (bufferAudit Var T type).Shows program.2 (buffer.setCopy type data granted).1
        (some (Function.update program.1 var (some (buffer.setCopy type data granted).2.1))) ↔
      granted = none ∨ (program.1.get var).mData = 0 ∧ Assignable type data.size := by
  cases granted with
  | none => exact iff_of_true (Audit.shows_nil start) (.inl rfl)
  | some block =>
    have given := gives _ List.mem_cons_self
    refine (shows_fill_wrap_iff given held inv var _ false readable).trans ?_
    rw [or_iff_right (Option.some_ne_none block), Assignable, or_iff_right Bool.false_ne_true]

/-- Every call is correct exactly when it is careful. -/
theorem correct_iff_careful (held : Held program.1 program.2) (inv : program.Inv type)
    (call : BufferCall Var T) :
    (bufferAudit Var T type).Correct program call ↔ program.Careful type call := by
  apply Audit.correct_iff_of_perform
  intro events next performed gives
  obtain ⟨⟨_, buffers, result⟩, called, same⟩ := Option.map_eq_some_iff.mp performed
  cases same
  have none_get {var : Var} (free : program.1 var = none) : (program.1.get var).mData = 0 := by
    rw [Buffers.get, free]
    rfl
  cases call with
  | construct var =>
    obtain ⟨free, same⟩ := Option.ite_none_right_eq_some.mp called
    cases same
    exact iff_of_true (Audit.shows_nil (held_new held free _)) trivial
  | copyConstruct var other granted =>
    obtain ⟨⟨free, there⟩, same⟩ := Option.ite_none_right_eq_some.mp called
    cases same
    have allowed : (SpanOperand.elements (T := T) other 0 (program.1.size other)).Allowed
        program.1.size := (Nat.zero_add _).le
    have readable := inv.readable_span allowed
    refine (shows_setCopy_iff held inv (held_new held free _) readable gives).trans ?_
    exact or_congr_right (and_iff_right (none_get free))
  | moveConstruct var old =>
    obtain ⟨⟨free, there⟩, same⟩ := Option.ite_none_right_eq_some.mp called
    cases same
    exact iff_of_true (Audit.shows_nil (held_move held free there)) trivial
  | constructSpan var data granted =>
    obtain ⟨⟨free, allowed⟩, same⟩ := Option.ite_none_right_eq_some.mp called
    cases same
    have readable := inv.readable_span allowed
    refine (shows_setCopy_iff held inv (held_new held free _) readable gives).trans ?_
    exact or_congr_right (and_iff_right (none_get free))
  | allocBuffer var size value align granted =>
    obtain ⟨⟨there, allowed⟩, same⟩ := Option.ite_none_right_eq_some.mp called
    cases granted with
    | none =>
      cases same
      refine iff_of_true (Audit.shows_nil ?_) (.inl rfl)
      exact (update_get there).symm ▸ held
    | some block =>
      cases same
      have given := gives _ List.mem_cons_self
      refine (shows_fill_wrap_iff given held inv var _ true fun _ _ => inv.readable allowed).trans ?_
      refine Iff.trans (and_congr_right fun _ => ?_) (or_iff_right (Option.some_ne_none block)).symm
      rw [and_iff_right (Or.inl rfl)]
      refine or_iff_right_of_imp ?_
      rintro rfl
      rw [Nat.zero_mul]
      exact Nat.two_pow_pos 64
  | freeBuffer var =>
    obtain ⟨there, same⟩ := Option.ite_none_right_eq_some.mp called
    cases same
    exact iff_of_true (shows_release held (exists_of_get there) inv _) trivial
  | setCopy var data granted =>
    obtain ⟨⟨there, allowed⟩, same⟩ := Option.ite_none_right_eq_some.mp called
    cases same
    exact shows_setCopy_iff held inv ((update_get there).symm ▸ held) (inv.readable_span allowed) gives
  | destruct var =>
    obtain ⟨there, same⟩ := Option.ite_none_right_eq_some.mp called
    cases same
    exact iff_of_true (shows_release held (exists_of_get there) inv _) trivial

/-! ## The invariant -/

end Program

/-- A buffer whose block is as it was. -/
theorem Buffer.Filled.congr {buffer : Buffer} {heap after : Heap} (filled : buffer.Filled heap)
    (blocks : buffer.mData ≠ 0 → after.blocks buffer.mData = heap.blocks buffer.mData)
    (alive : ∀ i, after.alive (buffer.mData, i) = heap.alive (buffer.mData, i)) :
    buffer.Filled after where
  held nonzero := by
    rw [blocks nonzero]
    exact filled.held nonzero
  alive i := by
    rw [alive]
    exact filled.alive i

namespace Program

namespace Inv

variable {type} {program : Program Var} (inv : program.Inv type) {var : Var}
include inv

/-- One buffer and the heap change. -/
theorem update {value : Option Buffer} {heap : Heap} (null : heap.blocks 0 = .unknown)
    (room : ∀ place, heap.alive place = true → heap.Room type place)
    (filled : ∀ buffer, value = some buffer → buffer.Filled heap)
    (others : ∀ other buffer, other ≠ var → program.1 other = some buffer → buffer.Filled heap)
    (apart : ∀ other buffer new, other ≠ var → program.1 other = some buffer → value = some new →
      new.mData = buffer.mData → new.mData = 0) :
    Program.Inv type (Function.update program.1 var value, heap) where
  null := null
  room := room
  filled other buffer found := by
    have found' : Function.update program.1 var value other = some buffer := found
    by_cases here : other = var
    · subst here
      rw [Function.update_self] at found'
      exact filled buffer found'
    · rw [Function.update_of_ne here] at found'
      exact others other buffer here found'
  apart first second one two found there different same := by
    have found' : Function.update program.1 var value first = some one := found
    have there' : Function.update program.1 var value second = some two := there
    by_cases here : first = var
    · subst here
      rw [Function.update_self] at found'
      rw [Function.update_of_ne different.symm] at there'
      exact apart second two one different.symm there' found' same
    · rw [Function.update_of_ne here] at found'
      by_cases last : second = var
      · subst last
        rw [Function.update_self] at there'
        rw [same]
        exact apart first one two here found' there' same.symm
      · rw [Function.update_of_ne last] at there'
        exact inv.apart first second one two found' there' different same

/-- A buffer without a block. -/
theorem vanish {value : Option Buffer} (empty : ∀ new, value = some new → new = {}) :
    Program.Inv type (Function.update program.1 var value, program.2) := by
  apply inv.update inv.null inv.room
  · intro buffer same
    rw [empty buffer same]
    exact inv.filled_empty
  · intro other buffer _ there
    exact inv.filled other buffer there
  · intro _ _ new _ _ same _
    rw [empty new same]

/-- A buffer gets a new block with objects. -/
theorem fill {block amount bytes : ℕ} (given : block ≠ 0 ∧ program.2.blocks block = .unknown)
    (fits : amount * type.sizeOf ≤ bytes) :
    Program.Inv type (Function.update program.1 var (some ⟨block, amount⟩),
      (program.2.setBlock block (.allocated bytes)).filled block amount) := by
  have new : ((program.2.setBlock block (.allocated bytes)).filled block amount).blocks block =
      .allocated bytes := Function.update_self _ _ _
  have old {other : ℕ} (different : other ≠ block) :
      ((program.2.setBlock block (.allocated bytes)).filled block amount).blocks other =
        program.2.blocks other := Function.update_of_ne different _ _
  have objects (place : Address) :
      ((program.2.setBlock block (.allocated bytes)).filled block amount).alive place = true ↔
        (place.1 = block ∧ place.2 < amount) ∨ program.2.alive place = true := Heap.alive_filled
  apply inv.update
  · exact (old given.1.symm).trans inv.null
  · rintro ⟨place, i⟩ alive
    rcases (objects _).mp alive with ⟨rfl, bound⟩ | before
    · rw [Heap.Room, new]
      exact (Nat.mul_le_mul_right _ bound).trans fits
    · have room := inv.room _ before
      rw [Heap.Room, old]
      · exact room
      · rintro rfl
        rw [inv.not_alive given.2] at before
        cases before
  · rintro _ ⟨⟩
    refine ⟨fun _ => ⟨bytes, new⟩, fun i => (objects _).trans ?_⟩
    rw [inv.not_alive given.2]
    exact (or_iff_left Bool.false_ne_true).trans (and_iff_right rfl)
  · intro other buffer _ there
    have filled := inv.filled other buffer there
    have different := ne_of_given given filled
    refine filled.congr (fun _ => old different) fun i => ?_
    rw [Bool.eq_iff_iff, objects]
    exact or_iff_right fun inside => different inside.1
  · rintro other buffer _ _ there ⟨⟩ same
    exact absurd same.symm (ne_of_given given (inv.filled other buffer there))

/-- A block goes from one buffer to a new one. -/
theorem move {old : Var} (free : program.1 var = none) (there : program.1 old ≠ none) :
    Program.Inv type (Function.update (Function.update program.1 var (some (program.1.get old)))
      old (some {}), program.2) := by
  have apart : old ≠ var := fun same => there (same ▸ free)
  rw [Function.update_comm apart.symm]
  have left : Program.Inv type (Function.update program.1 old (some {}), program.2) :=
    inv.vanish fun new same => (Option.some.inj same).symm
  apply left.update left.null left.room
  · rintro _ ⟨⟩
    exact inv.filled_get old
  · intro other buffer _ found
    exact left.filled other buffer found
  · rintro other buffer _ different found ⟨⟩ same
    by_cases here : other = old
    · subst here
      have found' : Function.update program.1 other (some {}) other = some buffer := found
      rw [Function.update_self] at found'
      obtain rfl := Option.some.inj found'
      exact same
    · have found' := (Function.update_of_ne here _ _).symm.trans found
      exact inv.apart old other _ buffer (exists_of_get there) found' (Ne.symm here) same

/-- A buffer is without its block. -/
theorem release {buffer : Buffer} (there : program.1 var = some buffer) (nonzero : buffer.mData ≠ 0)
    {value : Option Buffer} (empty : ∀ new, value = some new → new = {}) :
    Program.Inv type (Function.update program.1 var value,
      (program.2.emptied buffer.mData buffer.mSize).setBlock buffer.mData .freed) := by
  have old {other : ℕ} (different : other ≠ buffer.mData) :
      ((program.2.emptied buffer.mData buffer.mSize).setBlock buffer.mData .freed).blocks other =
        program.2.blocks other := Function.update_of_ne different _ _
  have objects (place : Address) :
      ((program.2.emptied buffer.mData buffer.mSize).setBlock buffer.mData .freed).alive place =
        true ↔ ¬ (place.1 = buffer.mData ∧ place.2 < buffer.mSize) ∧
          program.2.alive place = true := Heap.alive_emptied
  have filled := inv.filled var buffer there
  apply inv.update
  · exact (old nonzero.symm).trans inv.null
  · rintro ⟨place, i⟩ alive
    obtain ⟨outside, before⟩ := (objects _).mp alive
    rw [Heap.Room, old]
    · exact inv.room _ before
    · rintro rfl
      exact outside ⟨rfl, (filled.alive i).mp before⟩
  · intro new same
    rw [empty new same]
    refine inv.filled_empty.congr (fun zero => absurd rfl zero) fun i => ?_
    rw [Bool.eq_iff_iff, objects]
    exact and_iff_right fun inside => nonzero inside.1.symm
  · intro other otherBuffer different found
    have apart : otherBuffer.mData ≠ buffer.mData := fun same => nonzero
      (inv.apart var other buffer otherBuffer there found different.symm same.symm)
    refine (inv.filled other otherBuffer found).congr (fun _ => old apart) fun i => ?_
    rw [Bool.eq_iff_iff, objects]
    exact and_iff_right fun inside => apart inside.1
  · intro _ _ new _ _ same _
    rw [empty new same]

omit [DecidableEq Var] in
theorem freeBuffer_eq_empty {buffer : Buffer} (filled : buffer.Filled program.2) :
    (buffer.freeBuffer (T := T)).2.1 = {} := by
  rw [Buffer.freeBuffer]
  split
  · rfl
  · rename_i null
    exact inv.eq_empty filled (not_not.mp null)

/-- After the block of a buffer was freed, if it had one. -/
theorem freeBuffer (there : program.1 var ≠ none) {value : Option Buffer}
    (empty : ∀ new, value = some new → new = {}) {heap : Heap}
    (recorded : (bufferAudit Var T type).recordAll program.2 (program.1.get var).freeBuffer.1 =
      some heap) : Program.Inv type (Function.update program.1 var value, heap) := by
  have filled := inv.filled_get var
  rw [Buffer.freeBuffer] at recorded
  split at recorded
  · rename_i nonzero
    obtain ⟨bytes, allocated⟩ := filled.held nonzero
    rw [Heap.recordAll_release allocated filled.alive] at recorded
    obtain rfl := Option.some.inj recorded
    exact inv.release (exists_of_get there) nonzero empty
  · obtain rfl := Option.some.inj recorded
    exact inv.vanish empty

/-- After a block was given to a buffer and objects were made in it. -/
theorem recordedFill {block amount bytes align : ℕ}
    (given : block ≠ 0 ∧ program.2.blocks block = .unknown) (constructs : Bool)
    {value : ℕ → Reference T} (readable : ∀ i < amount, program.2.Readable (value i)) {heap : Heap}
    (recorded : (bufferAudit Var T type).recordAll program.2 (.allocate block bytes align ::
      (List.range amount).map fun i => Heap.fills constructs (block, i) (value i)) = some heap) :
    Program.Inv type (Function.update program.1 var (some ⟨block, amount⟩), heap) := by
  rw [recordAll_fill given inv align constructs readable] at recorded
  obtain ⟨needs, same⟩ := Option.ite_none_right_eq_some.mp recorded
  obtain rfl := Option.some.inj same
  apply inv.fill given
  rcases needs with rfl | ⟨-, fits⟩
  · rw [Nat.zero_mul]
    exact Nat.zero_le bytes
  · exact fits

/-- After `setCopy`, whether or not a block was granted. -/
theorem setCopy {buffer : Buffer}
    (start : Program.Inv type (Function.update program.1 var (some buffer), program.2))
    {data : Util.Span T} (readable : ∀ i < data.size, program.2.Readable (data.data i))
    {granted : Option ℕ}
    (gives : ∀ event ∈ (buffer.setCopy type data granted).1, program.2.CanGive event) {heap : Heap}
    (recorded : (bufferAudit Var T type).recordAll program.2 (buffer.setCopy type data granted).1 =
      some heap) :
    Program.Inv type
      (Function.update program.1 var (some (buffer.setCopy type data granted).2.1), heap) := by
  cases granted with
  | none =>
    obtain rfl := Option.some.inj recorded
    exact start
  | some block => exact inv.recordedFill (gives _ List.mem_cons_self) false readable recorded

/-- A call whose events are right keeps what buffers know of the heap. -/
theorem step {call : BufferCall Var T} {target : Program Var}
    (stepped : (bufferAudit Var T type).step program call = some target) : target.Inv type := by
  obtain ⟨events, -, performed, gives, recorded⟩ := Audit.exists_of_step stepped
  obtain ⟨buffers, heap⟩ := target
  obtain ⟨⟨_, _, result⟩, called, same⟩ := Option.map_eq_some_iff.mp performed
  cases same
  have empty (new : Buffer) (same : some ({} : Buffer) = some new) : new = {} :=
    (Option.some.inj same).symm
  have unchanged {var : Var} (there : program.1 var ≠ none) :
      Program.Inv type (Function.update program.1 var (some (program.1.get var)), program.2) := by
    rw [update_get there]
    exact inv
  cases call with
  | construct var =>
    obtain ⟨-, same⟩ := Option.ite_none_right_eq_some.mp called
    cases same
    obtain rfl := Option.some.inj recorded
    exact inv.vanish empty
  | copyConstruct var other granted =>
    obtain ⟨-, same⟩ := Option.ite_none_right_eq_some.mp called
    cases same
    have allowed : (SpanOperand.elements (T := T) other 0 (program.1.size other)).Allowed
        program.1.size := (Nat.zero_add _).le
    exact inv.setCopy (inv.vanish empty) (inv.readable_span allowed) gives recorded
  | moveConstruct var old =>
    obtain ⟨⟨free, there⟩, same⟩ := Option.ite_none_right_eq_some.mp called
    cases same
    obtain rfl := Option.some.inj recorded
    exact inv.move free there
  | constructSpan var data granted =>
    obtain ⟨⟨-, allowed⟩, same⟩ := Option.ite_none_right_eq_some.mp called
    cases same
    exact inv.setCopy (inv.vanish empty) (inv.readable_span allowed) gives recorded
  | allocBuffer var size value align granted =>
    obtain ⟨⟨there, allowed⟩, same⟩ := Option.ite_none_right_eq_some.mp called
    cases granted with
    | none =>
      cases same
      obtain rfl := Option.some.inj recorded
      exact unchanged there
    | some block =>
      cases same
      have given := gives _ List.mem_cons_self
      exact inv.recordedFill given true (fun _ _ => inv.readable allowed) recorded
  | freeBuffer var =>
    obtain ⟨there, same⟩ := Option.ite_none_right_eq_some.mp called
    cases same
    refine inv.freeBuffer there (fun new same => ?_) recorded
    rw [← Option.some.inj same]
    exact inv.freeBuffer_eq_empty (inv.filled_get var)
  | setCopy var data granted =>
    obtain ⟨⟨there, allowed⟩, same⟩ := Option.ite_none_right_eq_some.mp called
    cases same
    exact inv.setCopy (unchanged there) (inv.readable_span allowed) gives recorded
  | destruct var =>
    obtain ⟨there, same⟩ := Option.ite_none_right_eq_some.mp called
    cases same
    have nothing (new : Buffer) (same : none = some new) : new = {} := nomatch same
    exact inv.freeBuffer there nothing recorded

end Inv

omit [DecidableEq Var] in
theorem inv_start (type : ElementType) : (start Var).Inv type where
  null := rfl
  room _ := nofun
  filled _ _ := nofun
  apart _ _ _ _ := nofun

omit [DecidableEq Var] in
theorem held_start : Held (start Var).1 (start Var).2 := fun _ _ => nofun

/-- From no buffers on all calls are correct exactly when all of them are careful. -/
theorem runMeets_kept_iff (type : ElementType) (calls : List (BufferCall Var T)) :
    RunMeets (bufferAudit Var T type).step (Correct type) (start Var) calls ↔
      RunMeets (bufferAudit Var T type).step (Careful type) (start Var) calls := by
  have audited : Correct type = (bufferAudit Var T type).Correct :=
    funext₂ fun program call => propext (and_iff_left (program.keeps call))
  rw [audited]
  apply Audit.runMeets_correct_iff_needs (Program.Inv type)
  · intro program call held inv
    exact correct_iff_careful held inv call
  · intro program call target inv _ stepped
    exact inv.step stepped
  · exact held_start
  · exact inv_start type

/-- A buffer that holds a block already loses it to the next one. -/
theorem not_runMeets_kept : ¬ RunMeets (bufferAudit ℕ ℕ ⟨4, 4, true, by decide⟩).step
    (Correct ⟨4, 4, true, by decide⟩) (start ℕ)
    [.construct 0, .allocBuffer 0 1 (.value 5) 4 (some 1), .allocBuffer 0 1 (.value 6) 4 (some 2)] := by
  rintro ⟨-, rest⟩
  obtain ⟨-, rest⟩ := rest _ rfl
  obtain ⟨⟨correct, -⟩, -⟩ := rest _ rfl
  obtain ⟨heap, recorded, held⟩ := correct _ _ rfl
  obtain rfl := Option.some.inj recorded
  obtain ⟨var, buffer, found, same⟩ := held _ rfl 1 4 rfl
  cases var with
  | zero =>
    obtain rfl := Option.some.inj found
    cases same
  | succ var => cases found

end Program

end Hakkun.Container
