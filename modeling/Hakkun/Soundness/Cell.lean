import Hakkun.Machine.Core.Run
import Hakkun.Machine.Core.Strays
import Hakkun.Model.Container.Cell

/-! # Copies and moves of cells

What an operation on two cells promises: the one takes what the other has, a cell that was moved
from is empty and one that was copied is as before, and all values of both are gone, each destroyed
once, when both cells end. An inline cell keeps this up unless it is moved from an empty cell or
from itself, a heap cell unless a full one is moved to itself.
-/

namespace Hakkun.Container

open Machine Util

variable {T Id : Type}

/-! ## What is promised -/

/-- What cells contain before and after an operation; the value of a full cell may be unknown. -/
structure Transfers (moves : Bool) (before after : Id → Option (Option T)) (this other : Id) :
    Prop where
  given : after this = before other
  left (moved : moves = true) (apart : this ≠ other) : after other = none
  kept (copied : moves = false) : after other = before other

/-- The values that are left when cells have ended. -/
structure Settles (memory ended : Memory T) (owned : Address → Prop) : Prop where
  sound : ended.Sound
  gone (address : Address) (live : ended.Live address) : memory.Live address ∧ ¬ owned address

/-! ## Inline cells -/

namespace Cells

variable (type : TrackedType T) {cells : Cells T} {this other : Address}

/-- The values that live are those of the cells that are alive. -/
structure WellFormed (cells : Cells T) : Prop where
  sound : cells.memory.Sound
  alive (this : Address) : cells.mAlive this = true ↔ cells.memory.Live this

def contents (cells : Cells T) (this : Address) : Option (Option T) :=
  if cells.isAlive this then some (cells.memory.read this) else none

theorem contents_of_alive (alive : cells.mAlive this = true) :
    cells.contents this = some (cells.memory.read this) := if_pos alive

theorem contents_of_empty (empty : cells.mAlive this = false) : cells.contents this = none :=
  if_neg (Bool.eq_false_iff.mp empty)

/-- The memory in which a cell is empty. -/
def cleared (cells : Cells T) (this : Address) : Memory T :=
  if cells.isAlive this then cells.memory.destroy type.toObjectType this else cells.memory

theorem destroy_eq (cells : Cells T) (this : Address) : cells.destroy type this =
    ⟨cells.cleared type this, Function.update cells.mAlive this false⟩ := by
  unfold destroy cleared
  split_ifs with alive
  · rfl
  · have same : Function.update cells.mAlive this false = cells.mAlive :=
      Function.update_eq_self_iff.mpr (Bool.eq_false_iff.mpr alive).symm
    rw [same]

theorem destroy_destroy :
    (cells.destroy type this).destroy type this = cells.destroy type this := by
  have empty : ¬ (cells.destroy type this).isAlive this = true := by
    rw [destroy_eq]
    exact Bool.eq_false_iff.mp (Function.update_self ..)
  rw [destroy, if_neg empty]

/-- What a cell leaves in memory when it is emptied. -/
structure Clears (memory : Memory T) (this : Address) (after : Memory T) : Prop where
  sound : after.Sound
  live (address : Address) : after.Live address ↔ address ≠ this ∧ memory.Live address
  read (address : Address) (apart : address ≠ this) : after.read address = memory.read address
  valid (address : Address) : after.Valid address ↔ memory.Valid address

theorem Clears.dead {memory after : Memory T} (clears : Clears memory this after) :
    ¬ after.Live this := fun live => ((clears.live this).mp live).1 rfl

theorem clears_destroy {memory : Memory T} (sound : memory.Sound) (live : memory.Live this) :
    Clears memory this (memory.destroy type.toObjectType this) where
  sound := sound.destroy type.tracked live
  live _ := Memory.live_destroy type.tracked (sound.placed this live)
  read _ apart := Memory.read_destroy_of_ne apart
  valid := (Memory.Calm.destroy (sound.placed this live)).valid_iff

theorem clears_of_dead {memory : Memory T} (sound : memory.Sound) (dead : ¬ memory.Live this) :
    Clears memory this memory where
  sound := sound
  live _ := (and_iff_right_of_imp fun live same => dead (same.subst live)).symm
  read _ _ := rfl
  valid _ := Iff.rfl

theorem WellFormed.clears (wellFormed : cells.WellFormed) (this : Address) :
    Clears cells.memory this (cells.cleared type this) := by
  unfold cleared
  split_ifs with alive
  · exact clears_destroy type wellFormed.sound ((wellFormed.alive this).mp alive)
  · exact clears_of_dead wellFormed.sound fun live => alive ((wellFormed.alive this).mpr live)

theorem WellFormed.destroy (wellFormed : cells.WellFormed) (this : Address) :
    (cells.destroy type this).WellFormed := by
  have clears := wellFormed.clears type this
  rw [destroy_eq]
  refine ⟨clears.sound, fun address => ?_⟩
  change Function.update cells.mAlive this false address = true ↔ _
  rw [clears.live]
  rcases eq_or_ne address this with rfl | apart
  · rw [Function.update_self]
    exact iff_of_false nofun fun held => held.1 rfl
  · rw [Function.update_of_ne apart, wellFormed.alive, and_iff_right apart]

/-! ### Filling a cell -/

/-- What an empty cell that is given a value leaves in memory. -/
structure Fills (memory : Memory T) (this : Address) (value : Option T) (after : Memory T) :
    Prop where
  sound : after.Sound
  live (address : Address) : after.Live address ↔ address = this ∨ memory.Live address
  given : after.read this = value
  read (address : Address) (apart : address ≠ this) : after.read address = memory.read address
  valid (address : Address) : after.Valid address ↔ memory.Valid address

theorem fills_construct {memory : Memory T} (sound : memory.Sound) (valid : memory.Valid this)
    (dead : ¬ memory.Live this) (value : Option T) :
    Fills memory this value (memory.construct type.toObjectType this value) where
  sound := sound.construct valid dead value
  live _ := Memory.live_construct valid value
  given := Memory.read_construct_self valid value
  read _ apart := Memory.read_construct_of_ne apart value
  valid := (Memory.Calm.construct valid value).valid_iff

/-- A copy of another value. -/
theorem fills_copy {memory : Memory T} (sound : memory.Sound) (valid : memory.Valid this)
    (dead : ¬ memory.Live this) (live : memory.Live other) :
    Fills memory this (memory.read other)
      (constructAt type.toObjectType memory this (.element other) false) := by
  have calm := Memory.Calm.touch (sound.placed other live)
  have fills := fills_construct type (sound.touch live) ((calm.valid_iff this).mpr valid)
    dead (memory.read other)
  exact ⟨fills.sound, fills.live, fills.given, fills.read,
    fun address => (fills.valid address).trans (calm.valid_iff address)⟩

/-- What a value that is moved to an empty cell, and destroyed behind it, leaves in memory. -/
structure Takes (memory : Memory T) (this other : Address) (after : Memory T) : Prop where
  sound : after.Sound
  live (address : Address) :
    after.Live address ↔ address ≠ other ∧ (address = this ∨ memory.Live address)
  given : after.read this = memory.read other
  valid (address : Address) : after.Valid address ↔ memory.Valid address

theorem takes_move {memory : Memory T} (sound : memory.Sound) (valid : memory.Valid this)
    (dead : ¬ memory.Live this) (live : memory.Live other) :
    Takes memory this other
      ((constructAt type.toObjectType memory this (.element other) true).destroy
        type.toObjectType other) := by
  have apart : this ≠ other := fun same => dead (same ▸ live)
  have fills := fills_copy type sound valid dead live
  set copied := constructAt type.toObjectType memory this (.element other) false
  have moved : constructAt type.toObjectType memory this (.element other) true =
      copied.retire type.toObjectType other := rfl
  have lives : (copied.retire type.toObjectType other).Live other :=
    Memory.live_retire.mpr ((fills.live other).mpr (.inr live))
  have clears := clears_destroy type fills.sound.retire lives
  rw [moved]
  refine ⟨clears.sound, fun address => ?_, ?_, fun address => ?_⟩
  · rw [clears.live, Memory.live_retire, fills.live]
  · rw [clears.read this apart, Memory.read_retire_of_ne apart, fills.given]
  · exact ((clears.valid address).trans (Memory.Calm.retire.valid_iff address)).trans
      (fills.valid address)

/-! ### Operations that keep cells -/

/-- A well-formed state in which some cells were alive. -/
theorem wellFormed_update {mAlive : Address → Bool} {memory : Memory T} {alive : Bool}
    (sound : memory.Sound) (here : alive = true ↔ memory.Live this)
    (elsewhere : ∀ address ≠ this, mAlive address = true ↔ memory.Live address) :
    WellFormed ⟨memory, Function.update mAlive this alive⟩ := by
  refine ⟨sound, fun address => ?_⟩
  change Function.update mAlive this alive address = true ↔ _
  rcases eq_or_ne address this with rfl | apart
  · rwa [Function.update_self]
  · rw [Function.update_of_ne apart, elsewhere address apart]

/-- When both cells of an operation end, the values of all others are left. -/
theorem WellFormed.settles {after : Cells T} {memory : Memory T} (wellFormed : after.WellFormed)
    (live : ∀ address, after.memory.Live address →
      address = this ∨ address = other ∨ memory.Live address) :
    Settles memory ((after.destroy type this).destroy type other).memory
      (fun address => address = this ∨ address = other) := by
  have first := wellFormed.clears type this
  have second := (wellFormed.destroy type this).clears type other
  rw [destroy_eq _ _ other]
  refine ⟨second.sound, fun address alive => ?_⟩
  obtain ⟨apart, alive⟩ := (second.live address).mp alive
  rw [destroy_eq] at alive
  obtain ⟨different, alive⟩ := (first.live address).mp alive
  exact ⟨((live address alive).resolve_left different).resolve_left apart,
    fun owned => owned.elim different apart⟩

/-! ### The operations -/

/-- What an operation as promised leaves. -/
structure Hands (cells : Cells T) (moves : Bool) (this other : Address) (after : Cells T) :
    Prop where
  wellFormed : after.WellFormed
  transfers : Transfers moves cells.contents after.contents this other
  live (address : Address) (alive : after.memory.Live address) :
    address = this ∨ cells.memory.Live address

variable {type}

/-- The memory of a move between two cells. -/
theorem moveFrom_eq (apart : this ≠ other) : cells.moveFrom type this other =
    ⟨(constructAt type.toObjectType (cells.cleared type this) this (.element other) true).destroy
      type.toObjectType other,
      Function.update (Function.update cells.mAlive other false) this true⟩ := by
  have same : (cells.setAlive other false).isAlive this = cells.isAlive this :=
    Function.update_of_ne apart ..
  have clears : (cells.setAlive other false).cleared type this = cells.cleared type this := by
    rw [cleared, same]
    rfl
  rw [moveFrom, construct, destroy_eq, clears, setAlive, setAlive, Function.update_idem]

/-- A full cell can be moved to another one. -/
theorem WellFormed.hands_moveFrom (wellFormed : cells.WellFormed) (apart : this ≠ other)
    (full : cells.mAlive other = true) (valid : cells.memory.Valid this) :
    cells.Hands true this other (cells.moveFrom type this other) := by
  have clears := wellFormed.clears type this
  have live : (cells.cleared type this).Live other :=
    (clears.live other).mpr ⟨apart.symm, (wellFormed.alive other).mp full⟩
  have dead := clears.dead
  have takes := takes_move type clears.sound ((clears.valid this).mpr valid) dead live
  have moved : Function.update (Function.update cells.mAlive other false) this true other = false :=
    (Function.update_of_ne apart.symm ..).trans (Function.update_self ..)
  rw [moveFrom_eq apart]
  refine ⟨wellFormed_update takes.sound ?_ fun address different => ?_,
    ⟨?_, fun _ _ => contents_of_empty moved, nofun⟩, fun address alive => ?_⟩
  · exact iff_of_true rfl ((takes.live this).mpr ⟨apart, .inl rfl⟩)
  · rw [takes.live, clears.live]
    rcases eq_or_ne address other with rfl | elsewhere
    · rw [Function.update_self]
      exact iff_of_false nofun fun held => held.1 rfl
    · rw [Function.update_of_ne elsewhere, wellFormed.alive, and_iff_right elsewhere,
        and_iff_right different, or_iff_right different]
  · rw [contents_of_alive (Function.update_self ..), contents_of_alive full, takes.given,
      clears.read _ apart.symm]
  · have taken := ((takes.live address).mp alive).2
    exact taken.imp_right fun alive => ((clears.live address).mp alive).2

theorem WellFormed.isSome_slots (wellFormed : cells.WellFormed) (address : Address) :
    (cells.memory.slots address).isSome = true ↔ cells.mAlive address = true := by
  rw [wellFormed.alive, Option.isSome_iff_ne_none]
  rfl

theorem WellFormed.copyMembers_of_full (wellFormed : cells.WellFormed) (apart : this ≠ other)
    (full : cells.mAlive other = true) : cells.copyMembers type this other =
      ⟨constructAt type.toObjectType (cells.cleared type this) this (.element other) false,
        Function.update cells.mAlive this true⟩ := by
  rw [copyMembers, copyUnion, if_neg apart, if_pos ((wellFormed.isSome_slots other).mpr full),
    if_congr (wellFormed.isSome_slots this) rfl rfl, isAlive, full]
  rfl

theorem WellFormed.copyMembers_of_empty (wellFormed : cells.WellFormed) (apart : this ≠ other)
    (empty : cells.mAlive other = false) :
    cells.copyMembers type this other = cells.destroy type this := by
  have nothing : ¬ (cells.memory.slots other).isSome = true := fun held =>
    Bool.eq_false_iff.mp empty ((wellFormed.isSome_slots other).mp held)
  rw [copyMembers, copyUnion, if_neg apart, if_neg nothing,
    if_congr (wellFormed.isSome_slots this) rfl rfl, isAlive, empty, destroy_eq]
  rfl

theorem copyMembers_self : cells.copyMembers type this this = cells := by
  rw [copyMembers, copyUnion, if_pos rfl, isAlive, Function.update_eq_self]

theorem WellFormed.copies_of_full (wellFormed : cells.WellFormed) (apart : this ≠ other)
    (full : cells.mAlive other = true) (valid : cells.memory.Valid this) :
    cells.Hands false this other (cells.copyMembers type this other) := by
  have clears := wellFormed.clears type this
  have live : (cells.cleared type this).Live other :=
    (clears.live other).mpr ⟨apart.symm, (wellFormed.alive other).mp full⟩
  have dead := clears.dead
  have fills := fills_copy type clears.sound ((clears.valid this).mpr valid) dead live
  have untouched : Function.update cells.mAlive this true other = true :=
    (Function.update_of_ne apart.symm ..).trans full
  rw [wellFormed.copyMembers_of_full apart full]
  refine ⟨wellFormed_update fills.sound ?_ fun address different => ?_,
    ⟨?_, nofun, fun _ => ?_⟩, fun address alive => ?_⟩
  · exact iff_of_true rfl ((fills.live this).mpr (.inl rfl))
  · rw [fills.live, or_iff_right different, clears.live, and_iff_right different, wellFormed.alive]
  · rw [contents_of_alive (Function.update_self ..), contents_of_alive full, fills.given,
      clears.read _ apart.symm]
  · rw [contents_of_alive untouched, contents_of_alive full, fills.read _ apart.symm,
      clears.read _ apart.symm]
  · exact ((fills.live address).mp alive).imp_right fun alive => ((clears.live address).mp alive).2

theorem WellFormed.copies_of_empty (wellFormed : cells.WellFormed) (apart : this ≠ other)
    (empty : cells.mAlive other = false) :
    cells.Hands false this other (cells.copyMembers type this other) := by
  have clears := wellFormed.clears type this
  have emptied := wellFormed.destroy type this
  rw [wellFormed.copyMembers_of_empty apart empty]
  rw [destroy_eq] at emptied ⊢
  refine ⟨emptied, ⟨?_, nofun, fun _ => ?_⟩, fun address alive => ?_⟩
  · rw [contents_of_empty empty, contents_of_empty (Function.update_self ..)]
  · rw [contents_of_empty empty, contents_of_empty]
    exact (Function.update_of_ne apart.symm ..).trans empty
  · exact .inr ((clears.live address).mp alive).2

/-- A cell can be copied, full or empty. -/
theorem WellFormed.copies (wellFormed : cells.WellFormed) (valid : cells.memory.Valid this) :
    cells.Hands false this other (cells.copyMembers type this other) := by
  rcases eq_or_ne this other with rfl | apart
  · rw [copyMembers_self]
    exact ⟨wellFormed, ⟨rfl, nofun, fun _ => rfl⟩, fun _ => .inr⟩
  cases full : cells.mAlive other with
  | true => exact wellFormed.copies_of_full apart full valid
  | false => exact wellFormed.copies_of_empty apart full

/-- After a move the target is alive, whatever the source was. -/
theorem contents_moveFrom_ne (empty : cells.mAlive other = false) :
    (cells.moveFrom type this other).contents this ≠ cells.contents other := by
  have alive : (cells.moveFrom type this other).mAlive this = true := Function.update_self ..
  rw [contents_of_alive alive, contents_of_empty empty]
  nofun

theorem misused_destroy {memory : Memory T} (valid : memory.Valid this)
    (dead : ¬ memory.Live this) : (memory.destroy type.toObjectType this).misused = true := by
  rw [Memory.destroy, if_neg (Bool.eq_false_iff.mp type.tracked), if_pos valid,
    not_not.mp (dead : ¬ memory.slots this ≠ none)]

/-- A cell that is moved to itself has its value destroyed, and again at its end. -/
theorem misused_moveFrom_self (valid : cells.memory.Valid this) :
    ((cells.moveFrom type this this).destroy type this).memory.misused = true := by
  have alive : (cells.moveFrom type this this).isAlive this = true := Function.update_self ..
  have stale : ¬ (cells.setAlive this false).isAlive this = true :=
    Bool.eq_false_iff.mp (Function.update_self ..)
  set constructed := constructAt type.toObjectType cells.memory this (.element this) true
  have memory : (cells.moveFrom type this this).memory =
      constructed.destroy type.toObjectType this := by
    rw [moveFrom, construct, destroy, if_neg stale]
    rfl
  have keeps : Memory.Keeps cells.memory constructed :=
    (Memory.Keeps.touch ..).trans ((Memory.Keeps.construct ..).trans (Memory.Keeps.retire ..))
  have there : constructed.Valid this := (keeps.valid_iff this).mpr valid
  rw [destroy, if_pos alive]
  apply misused_destroy
  · rw [memory]
    exact ((Memory.Keeps.destroy ..).valid_iff this).mpr there
  · rw [memory, Memory.live_destroy type.tracked there]
    exact fun live => live.1 rfl

/-- Two cells, or one twice, and an operation on them. -/
structure Pair (T : Type) where
  cells : Cells T
  wellFormed : cells.WellFormed
  operation : CellOperation
  this : Address
  other : Address
  validThis : cells.memory.Valid this
  validOther : cells.memory.Valid other
  begins : operation.constructs = true → this ≠ other ∧ cells.mAlive this = false

namespace Pair

variable (type) (pair : Pair T)

def after : Cells T := pair.cells.transfer type pair.this pair.other pair.operation

/-- The memory when both cells have ended. -/
def ended : Memory T := ((pair.after type).destroy type pair.this |>.destroy type pair.other).memory

def Lawful : Prop :=
  Transfers pair.operation.moves pair.cells.contents (pair.after type).contents pair.this
      pair.other ∧
    Settles pair.cells.memory (pair.ended type)
      fun address => address = pair.this ∨ address = pair.other

variable {type} {pair}

theorem after_of_moves (moves : pair.operation.moves = true) :
    pair.after type = pair.cells.moveFrom type pair.this pair.other := by
  rw [after]
  cases performed : pair.operation with
  | moveConstruct =>
    have raw := (pair.begins (performed ▸ rfl)).2
    rw [transfer, setAlive, Function.update_eq_self_iff.mpr raw.symm]
  | moveAssign => rfl
  | copyConstruct => simp [performed, CellOperation.moves] at moves
  | copyAssign => simp [performed, CellOperation.moves] at moves

theorem after_of_copies (copies : pair.operation.moves = false) :
    pair.after type = pair.cells.copyMembers type pair.this pair.other := by
  rw [after]
  cases performed : pair.operation with
  | copyConstruct => rfl
  | copyAssign => rfl
  | moveConstruct => simp [performed, CellOperation.moves] at copies
  | moveAssign => simp [performed, CellOperation.moves] at copies

/-- A cell is only moved when it is full, and another one. -/
def Allowed (pair : Pair T) : Prop :=
  pair.operation.moves = true → pair.cells.mAlive pair.other = true ∧ pair.this ≠ pair.other

variable (type) in
theorem hands_of_allowed (allowed : pair.Allowed) :
    pair.cells.Hands pair.operation.moves pair.this pair.other (pair.after type) := by
  cases moves : pair.operation.moves with
  | true =>
    obtain ⟨full, apart⟩ := allowed moves
    rw [after_of_moves moves]
    exact pair.wellFormed.hands_moveFrom apart full pair.validThis
  | false =>
    rw [after_of_copies moves]
    exact pair.wellFormed.copies pair.validThis

theorem lawful_of_allowed (allowed : pair.Allowed) : pair.Lawful type := by
  have hands := hands_of_allowed type allowed
  exact ⟨hands.transfers, hands.wellFormed.settles type fun address alive =>
    (hands.live address alive).imp_right .inr⟩

theorem Lawful.allowed (lawful : pair.Lawful type) : pair.Allowed := by
  intro moves
  obtain ⟨transfers, settles⟩ := lawful
  constructor
  · by_contra empty
    have given := transfers.given
    rw [after_of_moves moves] at given
    exact contents_moveFrom_ne (Bool.eq_false_iff.mpr empty) given
  · intro same
    have used := settles.sound.used
    rw [ended, after_of_moves moves, ← same, destroy_destroy,
      misused_moveFrom_self pair.validThis] at used
    exact nomatch used

theorem lawful_iff : pair.Lawful type ↔ pair.Allowed := ⟨Lawful.allowed, lawful_of_allowed⟩

end Pair

/-! ### Runs -/

theorem WellFormed.construct (wellFormed : cells.WellFormed) (valid : cells.memory.Valid this)
    (value : T) : (cells.construct type this (.temporary value) true).WellFormed := by
  have clears := wellFormed.clears type this
  have fills := fills_construct type clears.sound ((clears.valid this).mpr valid) clears.dead
    (some value)
  rw [Cells.construct, destroy_eq, setAlive, Function.update_idem]
  refine wellFormed_update fills.sound ?_ fun address apart => ?_
  · exact iff_of_true rfl ((fills.live this).mpr (.inl rfl))
  · change _ ↔ Memory.Live (Memory.construct _ _ _ _) address
    rw [fills.live, or_iff_right apart, clears.live, and_iff_right apart, wellFormed.alive]

/-- Calls on cells that are there, without moves of an empty cell or of a cell to itself. -/
def Admits (cells : Cells T) : CellCall Address T → Prop
  | .construct this _ => cells.memory.Valid this
  | .destroy _ => True
  | .transfer operation this other =>
    cells.memory.Valid this ∧
      (operation.constructs = true → this ≠ other ∧ cells.mAlive this = false) ∧
      (operation.moves = true → cells.mAlive other = true ∧ this ≠ other)

theorem WellFormed.perform (wellFormed : cells.WellFormed) {call : CellCall Address T}
    (admits : cells.Admits call) : (cells.perform type call).WellFormed := by
  cases call with
  | construct this value => exact wellFormed.construct admits value
  | destroy this => exact wellFormed.destroy type this
  | transfer operation this other =>
    obtain ⟨valid, begins, moves⟩ := admits
    cases operation with
    | copyConstruct => exact (wellFormed.copies valid).wellFormed
    | copyAssign => exact (wellFormed.copies valid).wellFormed
    | moveConstruct =>
      obtain ⟨full, apart⟩ := moves rfl
      have raw : Function.update cells.mAlive this false = cells.mAlive :=
        Function.update_eq_self_iff.mpr (begins rfl).2.symm
      rw [Cells.perform, transfer, setAlive, raw]
      exact (wellFormed.hands_moveFrom apart full valid).wellFormed
    | moveAssign =>
      obtain ⟨full, apart⟩ := moves rfl
      exact (wellFormed.hands_moveFrom apart full valid).wellFormed

/-- Over a whole run the values that live are those of the cells that are alive, and every other
value was destroyed once. -/
theorem wellFormed_run {path : List (CellCall Address T)} {after : Cells T}
    (wellFormed : cells.WellFormed)
    (admits : RunMeets (fun cells call => some (perform type cells call)) Admits cells path)
    (ran : run (fun cells call => some (perform type cells call)) cells path = some after) :
    after.WellFormed :=
  run_invariant (fun _ _ _ inv admitted performed =>
    Option.some.inj performed ▸ WellFormed.perform inv admitted) wellFormed admits ran

end Cells

end Hakkun.Container
