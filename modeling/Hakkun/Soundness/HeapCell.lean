import Hakkun.Soundness.Cell

/-! # Moves of heap cells

A heap cell owns the block of its value. It takes over the block of another one, so that no value
is constructed or destroyed on the way; what it had before ends first, which is all that is left of
a full cell that is moved to itself.
-/

namespace Hakkun.Container

open Machine Util

variable {T : Type}

namespace HeapCells

variable (type : TrackedType T) {cells : HeapCells T} {this other : ℕ}

/-- A full cell is the only one with its block, which holds one value. -/
structure WellFormed (cells : HeapCells T) : Prop where
  sound : cells.memory.Sound
  single (this block : ℕ) (held : cells.mInstance this = some block) :
    cells.memory.blocks[block]? = some 1
  live (this block : ℕ) (held : cells.mInstance this = some block) : cells.memory.Live (block, 0)
  apart (this other block : ℕ) (one : cells.mInstance this = some block)
    (two : cells.mInstance other = some block) : this = other
  fresh (block : ℕ) (freed : block ∈ cells.memory.freed) : block < cells.memory.blocks.length

def contents (cells : HeapCells T) (this : ℕ) : Option (Option T) :=
  (cells.mInstance this).map fun block => cells.memory.read (block, 0)

/-- What ending a full cell leaves in memory. -/
structure Frees (memory : Memory T) (block : ℕ) (after : Memory T) : Prop where
  sound : after.Sound
  live (address : Address) : after.Live address ↔ address.1 ≠ block ∧ memory.Live address
  read (address : Address) (apart : address.1 ≠ block) : after.read address = memory.read address
  blocks : after.blocks = memory.blocks
  freed : after.freed = block :: memory.freed

theorem frees {memory : Memory T} {block : ℕ} (sound : memory.Sound)
    (single : memory.blocks[block]? = some 1) (live : memory.Live (block, 0)) :
    Frees memory block ((memory.destroy type.toObjectType (block, 0)).free block) := by
  have clears := Cells.clears_destroy type sound live
  set emptied := memory.destroy type.toObjectType (block, 0) with emptied_eq
  have dead (i : ℕ) : ¬ emptied.Live (block, i) := by
    intro alive
    obtain ⟨apart, alive⟩ := (clears.live _).mp alive
    have inside := (sound.placed _ alive).1
    rw [single] at inside
    exact apart (Prod.ext rfl (Nat.lt_one_iff.mp inside))
  have same (address : Address) (apart : address.1 ≠ block) :
      (emptied.free block).slots address = emptied.slots address := if_neg apart
  have calm : Memory.Calm memory emptied := Memory.Calm.destroy (sound.placed _ live)
  refine ⟨clears.sound.free dead, fun address => ?_, fun address apart => ?_, calm.blocks,
    congrArg _ calm.freed⟩
  · rcases eq_or_ne address.1 block with here | apart
    · have gone : (emptied.free block).slots address = none := if_pos here
      exact iff_of_false (fun alive => alive gone) fun held => held.1 here
    · rw [Memory.live_congr (same address apart), clears.live, and_iff_right apart, and_iff_right]
      rintro rfl
      exact apart rfl
  · rw [Memory.read_congr (same address apart), clears.read]
    rintro rfl
    exact apart rfl

theorem destroy_of_full {block : ℕ} (held : cells.mInstance this = some block) :
    cells.destroy type this =
      ⟨(cells.memory.destroy type.toObjectType (block, 0)).free block,
        Function.update cells.mInstance this none⟩ := by
  rw [destroy, held]
  rfl

theorem destroy_of_empty (empty : cells.mInstance this = none) :
    cells.destroy type this = cells := by
  rw [destroy, empty]

/-- What ending a cell leaves. -/
structure Empties (cells : HeapCells T) (this : ℕ) (after : HeapCells T) : Prop where
  wellFormed : after.WellFormed
  mInstance : after.mInstance = Function.update cells.mInstance this none
  contents (other : ℕ) (apart : other ≠ this) : after.contents other = cells.contents other
  live (address : Address) : after.memory.Live address ↔
    cells.mInstance this ≠ some address.1 ∧ cells.memory.Live address

theorem WellFormed.empties (wellFormed : cells.WellFormed) (this : ℕ) :
    cells.Empties this (cells.destroy type this) := by
  cases held : cells.mInstance this with
  | none =>
    have same : Function.update cells.mInstance this none = cells.mInstance :=
      Function.update_eq_self_iff.mpr held.symm
    rw [destroy_of_empty type held]
    exact ⟨wellFormed, same.symm, fun _ _ => rfl, fun _ => by rw [held]; simp⟩
  | some block =>
    have frees := frees type wellFormed.sound (wellFormed.single this block held)
      (wellFormed.live this block held)
    rw [destroy_of_full type held]
    have others {other block' : ℕ}
        (there : Function.update cells.mInstance this none other = some block') :
        cells.mInstance other = some block' ∧ block' ≠ block := by
      rcases eq_or_ne other this with rfl | apart
      · rw [Function.update_self] at there
        exact nomatch there
      · rw [Function.update_of_ne apart] at there
        refine ⟨there, ?_⟩
        rintro rfl
        exact apart (wellFormed.apart other this block' there held)
    refine ⟨⟨frees.sound, fun other block' there => ?_, fun other block' there => ?_,
      fun other another block' one two => ?_, fun block' ended => ?_⟩, rfl, fun other apart => ?_,
      fun address => ?_⟩
    · rw [frees.blocks]
      exact wellFormed.single other block' (others there).1
    · exact (frees.live _).mpr ⟨(others there).2, wellFormed.live other block' (others there).1⟩
    · exact wellFormed.apart other another block' (others one).1 (others two).1
    · rw [frees.blocks]
      rw [frees.freed] at ended
      rcases List.mem_cons.mp ended with rfl | earlier
      · exact (List.getElem?_eq_some_iff.mp (wellFormed.single this block' held)).1
      · exact wellFormed.fresh block' earlier
    · rw [contents, contents]
      dsimp only
      rw [Function.update_of_ne apart]
      cases there : cells.mInstance other with
      | none => rfl
      | some block' =>
        have kept : block' ≠ block := by
          rintro rfl
          exact apart (wellFormed.apart other this block' there held)
        exact congrArg some (frees.read (block', 0) kept)
    · rw [frees.live, held, ne_eq, ne_eq, Option.some.injEq, eq_comm]

/-! ### The operations -/

/-- What an operation as promised leaves. -/
structure Hands (cells : HeapCells T) (this other : ℕ) (after : HeapCells T) : Prop where
  wellFormed : after.WellFormed
  transfers : Transfers true cells.contents after.contents this other
  mInstance : after.mInstance this = cells.mInstance other
  live (address : Address) (alive : after.memory.Live address) :
    cells.mInstance this ≠ some address.1 ∧ cells.memory.Live address

variable {type}

/-- An empty cell takes over what another one has. -/
theorem WellFormed.hands_moveConstruct (wellFormed : cells.WellFormed) (apart : this ≠ other)
    (empty : cells.mInstance this = none) :
    cells.Hands this other (cells.moveConstruct this other) := by
  have taken : (cells.moveConstruct this other).mInstance this = cells.mInstance other :=
    (Function.update_of_ne apart ..).trans (Function.update_self ..)
  have left : (cells.moveConstruct this other).mInstance other = none := Function.update_self ..
  have owner {cell block : ℕ}
      (held : (cells.moveConstruct this other).mInstance cell = some block) :
      cells.mInstance (if cell = this then other else cell) = some block ∧ cell ≠ other := by
    have different : cell ≠ other := by
      rintro rfl
      exact nomatch left.symm.trans held
    refine ⟨?_, different⟩
    split_ifs with here
    · rwa [here, taken] at held
    · change Function.update (Function.update cells.mInstance this (cells.mInstance other)) other
        none cell = some block at held
      rwa [Function.update_of_ne different, Function.update_of_ne here] at held
  refine ⟨⟨wellFormed.sound, fun cell block held => ?_, fun cell block held => ?_,
    fun one two block first second => ?_, wellFormed.fresh⟩, ⟨?_, fun _ _ => ?_, nofun⟩, taken,
    fun address alive => ?_⟩
  · exact wellFormed.single _ block (owner held).1
  · exact wellFormed.live _ block (owner held).1
  · have same := wellFormed.apart _ _ block (owner first).1 (owner second).1
    split_ifs at same with here there there
    · exact here.trans there.symm
    · exact absurd same.symm (owner second).2
    · exact absurd same (owner first).2
    · exact same
  · rw [contents, contents, taken]
    rfl
  · rw [contents, left]
    rfl
  · exact ⟨by rw [empty]; nofun, alive⟩

theorem WellFormed.hands_moveAssign (wellFormed : cells.WellFormed) (apart : this ≠ other) :
    cells.Hands this other (cells.moveAssign type this other) := by
  have empties := wellFormed.empties type this
  have emptied : (cells.destroy type this).mInstance this = none := by
    rw [empties.mInstance]
    exact Function.update_self ..
  have same : (cells.destroy type this).mInstance other = cells.mInstance other := by
    rw [empties.mInstance]
    exact Function.update_of_ne apart.symm ..
  have hands := empties.wellFormed.hands_moveConstruct apart emptied
  refine ⟨hands.wellFormed, ⟨?_, hands.transfers.left, nofun⟩, hands.mInstance.trans same,
    fun address alive => (empties.live address).mp (hands.live address alive).2⟩
  exact hands.transfers.given.trans (empties.contents other apart.symm)

/-- When both cells of an operation end, the values of all others are left. -/
theorem Hands.settles {after : HeapCells T} (hands : cells.Hands this other after) :
    Settles cells.memory ((after.destroy type this).destroy type other).memory fun address =>
      cells.mInstance this = some address.1 ∨ cells.mInstance other = some address.1 := by
  have first := hands.wellFormed.empties type this
  have second := first.wellFormed.empties type other
  refine ⟨second.wellFormed.sound, fun address alive => ?_⟩
  obtain ⟨-, alive⟩ := (second.live address).mp alive
  obtain ⟨taken, alive⟩ := (first.live address).mp alive
  obtain ⟨previous, alive⟩ := hands.live address alive
  rw [hands.mInstance] at taken
  exact ⟨alive, fun owned => owned.elim previous taken⟩

theorem moveAssign_self_of_empty (empty : cells.mInstance this = none) :
    cells.moveAssign type this this = cells := by
  rw [moveAssign, destroy_of_empty type empty, empty, setStorage, setStorage,
    Function.update_idem, Function.update_eq_self_iff.mpr empty.symm]

/-- Two cells, or one twice, and an operation on them. -/
structure Pair (T : Type) where
  cells : HeapCells T
  wellFormed : cells.WellFormed
  operation : CellOperation
  this : ℕ
  other : ℕ
  begins : operation.constructs = true → this ≠ other ∧ cells.mInstance this = none

namespace Pair

variable {pair : Pair T}

variable (type) in
/-- What is promised of an operation, unless it is deleted. -/
def Lawful (pair : Pair T) : Prop :=
  ∀ after ∈ pair.cells.transfer type pair.this pair.other pair.operation,
    Transfers pair.operation.moves pair.cells.contents after.contents pair.this pair.other ∧
      Settles pair.cells.memory ((after.destroy type pair.this).destroy type pair.other).memory
        fun address => pair.cells.mInstance pair.this = some address.1 ∨
          pair.cells.mInstance pair.other = some address.1

/-- A cell is only assigned to itself when it is empty. -/
def Allowed (pair : Pair T) : Prop :=
  pair.operation = .moveAssign → pair.this = pair.other → pair.cells.mInstance pair.other = none

variable (type) in
theorem hands_of_allowed (allowed : pair.Allowed) {after : HeapCells T}
    (performed : pair.cells.transfer type pair.this pair.other pair.operation = some after) :
    pair.operation.moves = true ∧ pair.cells.Hands pair.this pair.other after := by
  cases operation : pair.operation with
  | copyConstruct =>
    rw [operation] at performed
    exact nomatch performed
  | copyAssign =>
    rw [operation] at performed
    exact nomatch performed
  | moveConstruct =>
    rw [operation] at performed
    obtain rfl := Option.some.inj performed
    obtain ⟨apart, raw⟩ := pair.begins (operation ▸ rfl)
    exact ⟨rfl, pair.wellFormed.hands_moveConstruct apart raw⟩
  | moveAssign =>
    rw [operation] at performed
    obtain rfl := Option.some.inj performed
    refine ⟨rfl, ?_⟩
    rcases eq_or_ne pair.this pair.other with same | apart
    · have empty := allowed operation same
      rw [same, moveAssign_self_of_empty empty]
      exact ⟨pair.wellFormed, ⟨rfl, fun _ apart => absurd rfl apart, nofun⟩, rfl,
        fun _ alive => ⟨by rw [empty]; nofun, alive⟩⟩
    · exact pair.wellFormed.hands_moveAssign apart

theorem lawful_iff : pair.Lawful type ↔ pair.Allowed := by
  constructor
  · intro lawful moves same
    have performed : pair.cells.moveAssign type pair.this pair.other ∈
        pair.cells.transfer type pair.this pair.other pair.operation := by
      rw [moves]
      rfl
    have given := (lawful _ performed).1.given
    have left : (pair.cells.moveAssign type pair.this pair.other).mInstance pair.this = none := by
      rw [same]
      exact Function.update_self ..
    rw [contents, contents, left] at given
    exact Option.map_eq_none_iff.mp given.symm
  · intro allowed after performed
    obtain ⟨moves, hands⟩ := hands_of_allowed type allowed performed
    exact ⟨moves ▸ hands.transfers, hands.settles⟩

end Pair

/-! ### Runs -/

theorem construct_eq_of_full {block : ℕ} (held : cells.mInstance this = some block) (value : T) :
    cells.construct type this (.temporary value) true =
      ⟨(cells.memory.destroy type.toObjectType (block, 0)).construct type.toObjectType (block, 0)
        (some value), cells.mInstance⟩ := by
  rw [construct, held]
  rfl

theorem construct_eq_of_empty (empty : cells.mInstance this = none) (value : T) :
    cells.construct type this (.temporary value) true =
      ⟨(cells.memory.allocate 1).2.construct type.toObjectType (cells.memory.blocks.length, 0)
        (some value), Function.update cells.mInstance this (some cells.memory.blocks.length)⟩ := by
  rw [construct, empty]
  rfl

/-- The value of a full cell is replaced where it is. -/
theorem WellFormed.construct_of_full (wellFormed : cells.WellFormed) {block : ℕ}
    (held : cells.mInstance this = some block) (value : T) :
    (cells.construct type this (.temporary value) true).WellFormed := by
  have live := wellFormed.live this block held
  have valid := wellFormed.sound.placed _ live
  have clears := Cells.clears_destroy type wellFormed.sound live
  have there := (clears.valid _).mpr valid
  have fills := Cells.fills_construct type clears.sound there clears.dead (some value)
  have calm : Memory.Calm cells.memory
      ((cells.memory.destroy type.toObjectType (block, 0)).construct type.toObjectType (block, 0)
        (some value)) :=
    (Memory.Calm.destroy valid).trans (Memory.Calm.construct there (some value))
  rw [construct_eq_of_full held]
  refine ⟨fills.sound, fun cell block' there => ?_, fun cell block' there => ?_, wellFormed.apart,
    fun block' freed => ?_⟩
  · exact (congrArg (·[block']?) calm.blocks).trans (wellFormed.single cell block' there)
  · refine (fills.live _).mpr ?_
    rcases eq_or_ne block' block with rfl | apart
    · exact .inl rfl
    · refine .inr ((clears.live _).mpr ⟨fun same => apart (congrArg Prod.fst same), ?_⟩)
      exact wellFormed.live cell block' there
  · have bound := wellFormed.fresh block' (calm.freed ▸ freed)
    exact calm.blocks ▸ bound

/-- An empty cell gets a new block. -/
theorem WellFormed.construct_of_empty (wellFormed : cells.WellFormed)
    (empty : cells.mInstance this = none) (value : T) :
    (cells.construct type this (.temporary value) true).WellFormed := by
  set block := cells.memory.blocks.length
  have unused : block ∉ cells.memory.freed :=
    fun freed => Nat.lt_irrefl _ (wellFormed.fresh block freed)
  have valid : (cells.memory.allocate 1).2.Valid (block, 0) := by
    refine ⟨?_, unused⟩
    change 0 < (cells.memory.blocks ++ [1])[block]?.getD 0
    rw [List.getElem?_concat_length]
    exact Nat.one_pos
  have fills := Cells.fills_construct type (wellFormed.sound.allocate 1) valid
    (wellFormed.sound.not_live_new 0) (some value)
  have blocks : ((cells.memory.allocate 1).2.construct type.toObjectType (block, 0)
      (some value)).blocks = cells.memory.blocks ++ [1] :=
    (Memory.Calm.construct valid (some value)).blocks
  have freed : ((cells.memory.allocate 1).2.construct type.toObjectType (block, 0)
      (some value)).freed = cells.memory.freed :=
    (Memory.Calm.construct valid (some value)).freed
  have older {cell block' : ℕ} (there : cells.mInstance cell = some block') : block' < block :=
    (List.getElem?_eq_some_iff.mp (wellFormed.single cell block' there)).1
  have cases' {cell block' : ℕ}
      (there : Function.update cells.mInstance this (some block) cell = some block') :
      cell = this ∧ block' = block ∨ cells.mInstance cell = some block' := by
    rcases eq_or_ne cell this with rfl | apart
    · rw [Function.update_self] at there
      exact .inl ⟨rfl, (Option.some.inj there).symm⟩
    · rw [Function.update_of_ne apart] at there
      exact .inr there
  rw [construct_eq_of_empty empty]
  refine ⟨fills.sound, fun cell block' there => ?_, fun cell block' there => ?_,
    fun one two block' first second => ?_, fun block' ended => ?_⟩
  · rw [blocks]
    rcases cases' there with ⟨-, rfl⟩ | there
    · exact List.getElem?_concat_length ..
    · rw [List.getElem?_append_left (older there)]
      exact wellFormed.single cell block' there
  · refine (fills.live _).mpr ?_
    rcases cases' there with ⟨-, rfl⟩ | there
    · exact .inl rfl
    · exact .inr (wellFormed.live cell block' there)
  · rcases cases' first with ⟨here, new⟩ | kept <;> rcases cases' second with ⟨there, same⟩ | kept'
    · exact here.trans there.symm
    · exact absurd (new ▸ older kept') (Nat.lt_irrefl _)
    · exact absurd (same ▸ older kept) (Nat.lt_irrefl _)
    · exact wellFormed.apart one two block' kept kept'
  · rw [freed] at ended
    rw [blocks, List.length_append]
    exact Nat.lt_succ_of_lt (wellFormed.fresh block' ended)

/-- Calls without a move of a full cell to itself. -/
def Admits (cells : HeapCells T) : CellCall ℕ T → Prop
  | .construct _ _ | .destroy _ => True
  | .transfer operation this other =>
    (operation.constructs = true → this ≠ other ∧ cells.mInstance this = none) ∧
      (operation = .moveAssign → this = other → cells.mInstance other = none)

theorem WellFormed.perform (wellFormed : cells.WellFormed) {call : CellCall ℕ T}
    (admits : cells.Admits call) {after : HeapCells T}
    (performed : cells.perform type call = some after) : after.WellFormed := by
  cases call with
  | construct this value =>
    obtain rfl := Option.some.inj performed
    cases held : cells.mInstance this with
    | none => exact wellFormed.construct_of_empty held value
    | some block => exact wellFormed.construct_of_full held value
  | destroy this =>
    obtain rfl := Option.some.inj performed
    exact (wellFormed.empties type this).wellFormed
  | transfer operation this other =>
    let pair : Pair T := ⟨cells, wellFormed, operation, this, other, admits.1⟩
    have allowed : pair.Allowed := admits.2
    exact (Pair.hands_of_allowed type allowed performed).2.wellFormed

/-- Over a whole run every full cell owns the block of its value, and every other value was
destroyed once. -/
theorem wellFormed_run {path : List (CellCall ℕ T)} {after : HeapCells T}
    (wellFormed : cells.WellFormed) (admits : RunMeets (perform type) Admits cells path)
    (ran : run (perform type) cells path = some after) : after.WellFormed :=
  run_invariant (fun _ _ _ inv admitted performed =>
    WellFormed.perform inv admitted performed) wellFormed admits ran

end HeapCells

/-! ## Both kinds -/

/-- Operations on cells are as promised exactly if an inline cell is only moved when it is full and
to another one, and a full heap cell is not moved to itself. -/
theorem cells_iff (type : TrackedType T) :
    (∀ pair : Cells.Pair T, pair.Lawful type ↔
      (pair.operation.moves = true →
        pair.cells.isAlive pair.other = true ∧ pair.this ≠ pair.other)) ∧
    ∀ pair : HeapCells.Pair T, pair.Lawful type ↔
      (pair.operation = .moveAssign → pair.this = pair.other →
        pair.cells.mInstance pair.other = none) :=
  ⟨fun _ => Cells.Pair.lawful_iff, fun _ => HeapCells.Pair.lawful_iff⟩

/-- Two empty cells. -/
def emptyPair : Cells.Pair (BitVec 8) where
  cells := ⟨{ blocks := [0, 2] }, fun _ => false⟩
  wellFormed := ⟨⟨rfl, fun _ live => absurd rfl live, nofun, nofun, nofun, fun _ _ => rfl⟩,
    fun _ => iff_of_false nofun fun live => live rfl⟩
  operation := .moveAssign
  this := (1, 0)
  other := (1, 1)
  validThis := by decide
  validOther := by decide
  begins := nofun

/-- An empty cell that is moved from makes the other one full. -/
theorem not_cells : ¬ ∀ (T : Type) (type : TrackedType T),
    (∀ pair : Cells.Pair T, pair.Lawful type) ∧ ∀ pair : HeapCells.Pair T, pair.Lawful type := by
  intro lawful
  let type : TrackedType (BitVec 8) := ⟨⟨false, id, 1, nofun, by decide⟩, rfl⟩
  have allowed := ((lawful _ type).1 emptyPair).allowed rfl
  exact nomatch allowed.1

end Hakkun.Container
