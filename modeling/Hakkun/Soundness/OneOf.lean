import Hakkun.Model.Container.OneOf

/-! # Ownership of alternatives

`destroy` clears the tag before it looks for the alternative to destroy, so it never finds one, and
the assignments construct over what the target holds. A call keeps ownership exactly when nothing it
destroys, assigns to or moves from holds a value.
-/

namespace Hakkun.Container

open Machine

variable {Var : Type*} [DecidableEq Var] {Types : U64}

/-- The tag of a `OneOf` names the alternative that is alive in it. -/
def OneOf.Named (Types : U64) (value : OneOf) : Prop :=
  (value.mType = 0 ∧ value.mValue = none) ∨
    ∃ index id, index < Types.toNat ∧ value.mType = index + 1 ∧ value.mValue = some (index, id)

namespace World

/-- An object is alive in a `OneOf`. -/
def Alive (world : World Var) (var : Var) (id : ℕ) : Prop :=
  ∃ value index, world.objects var = some value ∧ value.mValue = some (index, id)

/-- Tags name what is alive, no alternative has been accessed as another one, and every object that
was constructed is alive in one `OneOf` and not destroyed, or has been destroyed exactly once. -/
structure Owned (Types : U64) (world : World Var) : Prop where
  named : ∀ var value, world.objects var = some value → value.Named Types
  reads : world.misread = false
  once : ∀ id < world.constructed,
    (∃ var, world.Alive var id) ∨ world.destroyed.count id = 1
  alive : ∀ var id, world.Alive var id →
    id < world.constructed ∧ world.destroyed.count id = 0 ∧ ∀ other, world.Alive other id → other = var
  beyond : ∀ id, world.constructed ≤ id → world.destroyed.count id = 0

/-- A `OneOf` holds no value. -/
def Empty (world : World Var) (var : Var) : Prop :=
  ∀ value, world.objects var = some value → value.mType = 0

end World

namespace OneOfCall

/-- Nothing that is destroyed, assigned to or moved from holds a value. -/
def Bare (world : World Var) : OneOfCall Var → Prop
  | .moveConstruct _ old => world.Empty old
  | .copyAssign var _ => world.Empty var
  | .moveAssign var other => world.Empty var ∧ world.Empty other
  | .assignValue _ _ _ => False
  | .destruct var => world.Empty var
  | _ => True

/-- The condition on a call that a program makes. -/
def Harmless (Types : U64) (world : World Var) (call : OneOfCall Var) : Prop :=
  call.Allowed Types world → call.Bare world

/-- A call leaves every object owned. -/
def Owning (Types : U64) (world : World Var) (call : OneOfCall Var) : Prop :=
  ∀ after, call.step Types world = some after → after.Owned Types

end OneOfCall

/-- The recursion over the type list finds the alternative with the index that is looked for. -/
theorem byIndex_eq {σ : Type*} {action : ℕ → σ → σ} {left start index : ℕ} {state : σ}
    (lower : start ≤ index) (upper : index < start + left) (fits : start + left ≤ 2 ^ 64) :
    byIndex (BitVec.ofNat 64 index == ·) action left start state = action index state := by
  induction left generalizing start with
  | zero => omega
  | succ left ih =>
    rw [byIndex]
    rcases Nat.eq_or_lt_of_le lower with rfl | later
    · rw [if_pos (beq_self_eq_true _)]
    · rw [if_neg, ih later (by omega) (by omega)]
      rw [beq_iff_eq, ← BitVec.toNat_inj, BitVec.toNat_ofNat, BitVec.toNat_ofNat]
      omega

/-- Without the index in the type list the recursion does nothing. -/
theorem byIndex_absent {σ : Type*} {isMe : U64 → Bool} {action : ℕ → σ → σ} {left start : ℕ}
    {state : σ} (absent : ∀ i, i < start + left → isMe (BitVec.ofNat 64 i) = false) :
    byIndex isMe action left start state = state := by
  induction left generalizing start with
  | zero => rfl
  | succ left ih =>
    rw [byIndex, absent start (by omega), if_neg Bool.false_ne_true]
    exact ih fun i bound => absent i (by omega)

theorem toIndex_zero (value : OneOf) (none : value.mType = 0) : value.toIndex = -1 := by
  rw [OneOf.toIndex, none]
  rfl

theorem toIndex_succ {value : OneOf} {index : ℕ} (tag : value.mType = index + 1) :
    value.toIndex = BitVec.ofNat 64 index := by
  have shift : ((index + 1 : ℕ) : ℤ) - (OneOf.typeEnumStart : ℕ) = (index : ℕ) := by
    simp [OneOf.typeEnumStart]
  rw [OneOf.toIndex, tag, shift, BitVec.ofInt_natCast]

namespace World

variable {world : World Var} {var other : Var} {value : OneOf} {index id : ℕ}

omit [DecidableEq Var] in
theorem get_eq (there : world.objects var = some value) : world.get var = value := by
  rw [get, there]
  rfl

omit [DecidableEq Var] in
/-- No alternative has the index of the empty tag. -/
theorem isMe_none (none : (world.get var).mType = 0) {i : ℕ} (bound : i < Types.toNat) :
    world.isMe var (BitVec.ofNat 64 i) = false := by
  have := Types.isLt
  rw [isMe, toIndex_zero _ none, beq_eq_false_iff_ne, ne_eq, ← BitVec.toNat_inj,
    BitVec.toNat_ofNat]
  change ¬ 2 ^ 64 - 1 = i % 2 ^ 64
  omega

/-- `destroy` clears the tag and destroys nothing. -/
theorem destroy_eq (world : World Var) (var : Var) : world.destroy Types var = world.setType var 0 := by
  change (if (world.get var).hasValue then (world.setType var 0).destroyByIndex Types var
    else world.setType var 0) = world.setType var 0
  split_ifs with has
  · refine byIndex_absent fun i bound => isMe_none ?_ (show i < Types.toNat by omega)
    have cleared : (world.setType var 0).objects var =
        (world.objects var).map fun value => { value with mType := 0 } := Function.update_self ..
    rw [get, cleared]
    cases world.objects var <;> rfl
  · rfl

/-- A `OneOf` with a new object in it. -/
def place (world : World Var) (var : Var) (index : ℕ) : World Var :=
  { world with
    objects := Function.update world.objects var
      (some { mType := index + 1, mValue := some (index, world.constructed) })
    constructed := world.constructed + 1 }

@[simp] theorem place_self (world : World Var) (var : Var) (index : ℕ) :
    (world.place var index).objects var =
      some { mType := index + 1, mValue := some (index, world.constructed) } :=
  Function.update_self ..

@[simp] theorem place_of_ne (world : World Var) {var other : Var} (index : ℕ)
    (different : other ≠ var) : (world.place var index).objects other = world.objects other :=
  Function.update_of_ne different ..

/-- Another content of one variable. -/
def put (world : World Var) (var : Var) (content : Option OneOf) : World Var :=
  { world with objects := Function.update world.objects var content }

@[simp] theorem put_self (world : World Var) (var : Var) (content : Option OneOf) :
    (world.put var content).objects var = content := Function.update_self ..

@[simp] theorem put_of_ne (world : World Var) {var other : Var} (content : Option OneOf)
    (different : other ≠ var) : (world.put var content).objects other = world.objects other :=
  Function.update_of_ne different ..

theorem setType_eq (there : world.objects var = some value) (type : ℕ) :
    world.setType var type = world.put var (some { value with mType := type }) := by
  rw [setType, modify, there]
  rfl

theorem setType_same (there : world.objects var = some value) :
    world.setType var value.mType = world := by
  unfold setType modify
  rw [there]
  exact congrArg (fun objects => { world with objects := objects })
    (Function.update_eq_self_iff.mpr there.symm)

theorem setType_constructAt (there : world.objects var = some value) :
    (world.setType var (index + 1)).constructAt var index = world.place var index := by
  unfold setType constructAt modify place
  simp only [Function.update_self, Function.update_idem, there, Option.map_some]

theorem allocate_constructAt (world : World Var) (var : Var) (index : ℕ) :
    (world.allocate var (index + 1)).constructAt var index = world.place var index := by
  unfold allocate constructAt modify place
  simp only [Function.update_self, Function.update_idem, Option.map_some]

/-- Constructing an alternative from a value, in a new `OneOf`. -/
theorem allocate_construct (world : World Var) (var : Var) (index : ℕ) :
    (world.allocate var 0).construct Types var index = world.place var index := by
  unfold construct
  rw [destroy_eq]
  unfold allocate constructAt setType modify place OneOf.typeEnumStart
  simp only [Function.update_self, Function.update_idem, Option.map_some, Nat.add_comm 1 index]

theorem release_eq (world : World Var) (var : Var) : world.release Types var = world.put var none := by
  unfold release
  rw [destroy_eq]
  unfold setType modify put
  simp only [Function.update_idem]

/-- Constructing from a `OneOf` without a value constructs nothing. -/
theorem copyConstructByIndex_none (none : (world.get other).mType = 0) (target : Var) :
    world.copyConstructByIndex Types other target = world :=
  byIndex_absent fun i bound => isMe_none none (show i < Types.toNat by omega)

/-- Constructing from a `OneOf` with a value accesses the alternative that is alive in it. -/
theorem copyConstructByIndex_some (there : world.objects other = some value)
    (tag : value.mType = index + 1) (bound : index < Types.toNat)
    (content : value.mValue = some (index, id)) (target : Var) :
    world.copyConstructByIndex Types other target = world.constructAt target index := by
  have isMe : world.isMe other = (BitVec.ofNat 64 index == ·) := by
    funext i
    rw [World.isMe, get_eq there, toIndex_succ tag]
  have := Types.isLt
  have fine : world.grab other index = world := by
    unfold grab
    rw [get_eq there, content]
    simp
  rw [copyConstructByIndex, isMe, byIndex_eq (Nat.zero_le _) (by omega) (by omega), fine]

theorem moveConstructByIndex_eq (world : World Var) (var target : Var) :
    world.moveConstructByIndex Types var target = world.copyConstructByIndex Types var target := rfl

theorem constructDefaultByIndex_allocate (bound : index < Types.toNat) :
    (world.allocate var (index + 1)).constructDefaultByIndex Types var = world.place var index := by
  have there : (world.allocate var (index + 1)).objects var = some { mType := index + 1 } :=
    Function.update_self ..
  have isMe : (world.allocate var (index + 1)).isMe var = (BitVec.ofNat 64 index == ·) := by
    funext i
    rw [World.isMe, get_eq there, toIndex_succ rfl]
  have := Types.isLt
  rw [constructDefaultByIndex, isMe, byIndex_eq (Nat.zero_le _) (by omega) (by omega),
    allocate_constructAt]

theorem constructDefaultByIndex_none :
    (world.allocate var 0).constructDefaultByIndex Types var = world.allocate var 0 := by
  refine byIndex_absent fun i bound => isMe_none ?_ (show i < Types.toNat by omega)
  rw [get_eq (show (world.allocate var 0).objects var = some { mType := 0 } from Function.update_self ..)]

/-- Assigning from a `OneOf` without a value changes the tag only. -/
theorem assign_none {target : OneOf} (there : world.objects var = some target)
    (source : world.objects other = some value) (tag : value.mType = 0) :
    (world.setType var (world.get other).mType).copyConstructByIndex Types other var =
      world.put var (some { target with mType := 0 }) := by
  rw [get_eq source, tag, setType_eq there, copyConstructByIndex_none]
  by_cases same : other = var
  · subst same
    rw [get_eq (put_self ..)]
  · rw [get_eq ((put_of_ne world _ same).trans source), tag]

/-- Assigning from a `OneOf` with a value constructs a new object over what is there. -/
theorem assign_some {target : OneOf} (there : world.objects var = some target)
    (source : world.objects other = some value) (tag : value.mType = index + 1)
    (bound : index < Types.toNat) (content : value.mValue = some (index, id)) :
    (world.setType var (world.get other).mType).copyConstructByIndex Types other var =
      world.place var index := by
  have kept : ∃ after, (world.setType var (index + 1)).objects other = some after ∧
      after.mType = index + 1 ∧ after.mValue = some (index, id) := by
    rw [setType_eq there]
    by_cases same : other = var
    · subst same
      obtain rfl := Option.some.inj (there.symm.trans source)
      exact ⟨_, put_self .., rfl, content⟩
    · exact ⟨value, (put_of_ne world _ same).trans source, tag, content⟩
  obtain ⟨after, found, tag', content'⟩ := kept
  rw [get_eq source, tag, copyConstructByIndex_some found tag' bound content',
    setType_constructAt there]

/-- Constructing from a `OneOf` without a value. -/
theorem allocate_none (new : world.objects var = none) (source : world.objects other = some value)
    (tag : value.mType = 0) :
    (world.allocate var (world.get other).mType).copyConstructByIndex Types other var =
      world.put var (some {}) := by
  have different : other ≠ var := by
    rintro rfl
    cases new.symm.trans source
  rw [get_eq source, tag, copyConstructByIndex_none]
  · rfl
  · have kept : (world.allocate var 0).objects other = some value :=
      (put_of_ne world (some { mType := 0 }) different).trans source
    rw [get_eq kept, tag]

/-- Constructing from a `OneOf` with a value. -/
theorem allocate_some (new : world.objects var = none) (source : world.objects other = some value)
    (tag : value.mType = index + 1) (bound : index < Types.toNat)
    (content : value.mValue = some (index, id)) :
    (world.allocate var (world.get other).mType).copyConstructByIndex Types other var =
      world.place var index := by
  have different : other ≠ var := by
    rintro rfl
    cases new.symm.trans source
  have kept : (world.allocate var (index + 1)).objects other = some value :=
    (put_of_ne world (some { mType := index + 1 }) different).trans source
  rw [get_eq source, tag, copyConstructByIndex_some kept tag bound content, allocate_constructAt]

/-! What the changes of one `OneOf` do to ownership. -/

omit [DecidableEq Var] in
theorem alive_iff (there : world.objects var = some value) :
    world.Alive var id ↔ ∃ index, value.mValue = some (index, id) := by
  constructor
  · rintro ⟨found, index, present, content⟩
    obtain rfl := Option.some.inj (there.symm.trans present)
    exact ⟨index, content⟩
  · rintro ⟨index, content⟩
    exact ⟨value, index, there, content⟩

/-- A `OneOf` without a value can be made anew or dropped. -/
theorem Owned.update_empty (owned : world.Owned Types) (empty : ∀ id, ¬ world.Alive var id)
    {content : Option OneOf} (bare : content = none ∨ content = some {}) :
    (world.put var content).Owned Types := by
  have alive (other : Var) (id : ℕ) :
      (world.put var content).Alive other id ↔ world.Alive other id := by
    by_cases same : other = var
    · subst same
      refine iff_of_false ?_ (empty id)
      rintro ⟨value, index, there, holds⟩
      rw [put_self] at there
      rcases bare with rfl | rfl
      · cases there
      · obtain rfl := Option.some.inj there
        cases holds
    · unfold Alive
      rw [put_of_ne world content same]
  refine ⟨?_, owned.reads, ?_, ?_, owned.beyond⟩
  · intro other value there
    by_cases same : other = var
    · subst same
      rw [put_self] at there
      rcases bare with rfl | rfl
      · cases there
      · obtain rfl := Option.some.inj there
        exact .inl ⟨rfl, rfl⟩
    · rw [put_of_ne world content same] at there
      exact owned.named other value there
  · intro id bound
    simp only [alive]
    exact owned.once id bound
  · intro other id
    simp only [alive]
    exact owned.alive other id

/-- An object constructed where none is alive is owned. -/
theorem Owned.place (owned : world.Owned Types) (empty : ∀ id, ¬ world.Alive var id)
    (bound : index < Types.toNat) : (world.place var index).Owned Types := by
  have alive (other : Var) (id : ℕ) : (world.place var index).Alive other id ↔
      (other = var ∧ id = world.constructed) ∨ (other ≠ var ∧ world.Alive other id) := by
    by_cases same : other = var
    · subst same
      rw [alive_iff (place_self world other index)]
      constructor
      · rintro ⟨_, content⟩
        exact .inl ⟨rfl, ((Prod.mk.inj (Option.some.inj content)).2).symm⟩
      · rintro (⟨-, rfl⟩ | ⟨different, -⟩)
        · exact ⟨index, rfl⟩
        · exact (different rfl).elim
    · unfold Alive
      simp only [place_of_ne world index same, same, false_and, false_or, ne_eq,
        not_false_eq_true, true_and]
  refine ⟨?_, owned.reads, ?_, ?_, ?_⟩
  · intro other value there
    by_cases same : other = var
    · subst same
      rw [place_self] at there
      obtain rfl := Option.some.inj there
      exact .inr ⟨index, world.constructed, bound, rfl, rfl⟩
    · rw [place_of_ne world index same] at there
      exact owned.named other value there
  · intro id small
    simp only [alive]
    rcases Nat.eq_or_lt_of_le (Nat.le_of_lt_succ small) with rfl | older
    · exact .inl ⟨var, .inl ⟨rfl, rfl⟩⟩
    · rcases owned.once id older with ⟨other, holds⟩ | destroyed
      · refine .inl ⟨other, .inr ⟨?_, holds⟩⟩
        rintro rfl
        exact empty id holds
      · exact .inr destroyed
  · intro other id holds
    rcases (alive other id).mp holds with ⟨rfl, rfl⟩ | ⟨different, holds⟩
    · refine ⟨Nat.lt_succ_self _, owned.beyond _ le_rfl, fun third holds => ?_⟩
      rcases (alive third world.constructed).mp holds with ⟨same, -⟩ | ⟨-, holds⟩
      · exact same
      · exact (lt_irrefl _ (owned.alive third _ holds).1).elim
    · obtain ⟨older, undestroyed, single⟩ := owned.alive other id holds
      refine ⟨Nat.lt_succ_of_lt older, undestroyed, fun third holds => ?_⟩
      rcases (alive third id).mp holds with ⟨-, rfl⟩ | ⟨-, holds⟩
      · exact (lt_irrefl _ older).elim
      · exact single third holds
  · exact fun id later => owned.beyond id (Nat.le_of_succ_le later)

omit [DecidableEq Var] in
theorem Owned.mValue_none (owned : world.Owned Types) (there : world.objects var = some value)
    (tag : value.mType = 0) : value = {} := by
  rcases owned.named var value there with ⟨-, none⟩ | ⟨index, id, -, named, -⟩
  · cases value
    exact congr (congrArg OneOf.mk tag) none
  · omega

omit [DecidableEq Var] in
theorem Owned.not_alive (owned : world.Owned Types) (empty : world.Empty var) (id : ℕ) :
    ¬ world.Alive var id := by
  rintro ⟨value, index, there, content⟩
  rw [owned.mValue_none there (empty value there)] at content
  cases content

omit [DecidableEq Var] in
/-- A `OneOf` that is not empty holds an object of the alternative that its tag names. -/
theorem Owned.holds_of_not_empty (owned : world.Owned Types) (filled : ¬ world.Empty var) :
    ∃ value index id, world.objects var = some value ∧ index < Types.toNat ∧
      value.mType = index + 1 ∧ value.mValue = some (index, id) := by
  unfold Empty at filled
  push Not at filled
  obtain ⟨value, there, tag⟩ := filled
  rcases owned.named var value there with ⟨none, -⟩ | ⟨index, id, bound, named, content⟩
  · exact (tag none).elim
  · exact ⟨value, index, id, there, bound, named, content⟩

omit [DecidableEq Var] in
theorem not_alive_of_none (new : world.objects var = none) (id : ℕ) : ¬ world.Alive var id := by
  rintro ⟨value, index, there, -⟩
  cases new.symm.trans there

end World

namespace OneOfCall

open World

variable {world : World Var}

/-- A harmless call leaves every object owned. -/
theorem owned_run (owned : world.Owned Types) {call : OneOfCall Var}
    (allowed : call.Allowed Types world) (bare : call.Bare world) :
    (call.run Types world).Owned Types := by
  cases call with
  | constructNone var =>
    exact owned.update_empty (not_alive_of_none allowed) (.inr rfl)
  | constructType var type =>
    obtain ⟨new, bound⟩ := allowed
    cases type with
    | zero =>
      rw [run, constructDefaultByIndex_none]
      exact owned.update_empty (not_alive_of_none new) (.inr rfl)
    | succ index =>
      rw [run, constructDefaultByIndex_allocate bound]
      exact owned.place (not_alive_of_none new) bound
  | constructValue var index =>
    rw [run, allocate_construct]
    exact owned.place (not_alive_of_none allowed.1) allowed.2
  | copyConstruct var other =>
    obtain ⟨new, there⟩ := allowed
    obtain ⟨value, source⟩ := Option.ne_none_iff_exists'.mp there
    rw [run]
    rcases owned.named other value source with ⟨tag, -⟩ | ⟨index, id, bound, tag, content⟩
    · rw [allocate_none new source tag]
      exact owned.update_empty (not_alive_of_none new) (.inr rfl)
    · rw [allocate_some new source tag bound content]
      exact owned.place (not_alive_of_none new) bound
  | moveConstruct var old =>
    obtain ⟨new, there⟩ := allowed
    obtain ⟨value, source⟩ := Option.ne_none_iff_exists'.mp there
    have different : old ≠ var := by
      rintro rfl
      exact there new
    have kept := setType_same ((put_of_ne world (some {}) different).trans source)
    change (((world.allocate var (world.get old).mType).copyConstructByIndex Types old var).destroy
      Types old).Owned Types
    rw [bare value source] at kept
    rw [allocate_none new source (bare value source), destroy_eq, kept]
    exact owned.update_empty (not_alive_of_none new) (.inr rfl)
  | copyAssign var other =>
    obtain ⟨there, thereOther⟩ := allowed
    obtain ⟨target, present⟩ := Option.ne_none_iff_exists'.mp there
    obtain ⟨value, source⟩ := Option.ne_none_iff_exists'.mp thereOther
    rw [run]
    rcases owned.named other value source with ⟨tag, -⟩ | ⟨index, id, bound, tag, content⟩
    · rw [assign_none present source tag]
      obtain rfl := owned.mValue_none present (bare target present)
      exact owned.update_empty (owned.not_alive bare) (.inr rfl)
    · rw [assign_some present source tag bound content]
      exact owned.place (owned.not_alive bare) bound
  | moveAssign var other =>
    obtain ⟨there, thereOther⟩ := allowed
    obtain ⟨target, present⟩ := Option.ne_none_iff_exists'.mp there
    obtain ⟨value, source⟩ := Option.ne_none_iff_exists'.mp thereOther
    obtain rfl := owned.mValue_none present (bare.1 target present)
    obtain rfl := owned.mValue_none source (bare.2 value source)
    change (((world.setType var (world.get other).mType).copyConstructByIndex Types other
      var).destroy Types other).Owned Types
    have kept : (world.put var (some {})).objects other = some {} := by
      by_cases same : other = var
      · rw [same, put_self]
      · rw [put_of_ne world _ same, source]
    rw [assign_none present source rfl, destroy_eq, setType_same kept]
    exact owned.update_empty (owned.not_alive bare.1) (.inr rfl)
  | assignValue var temporary index => exact bare.elim
  | read var index =>
    obtain ⟨there, bound⟩ := allowed
    obtain ⟨value, present⟩ := Option.ne_none_iff_exists'.mp there
    have := Types.isLt
    rw [run]
    split_ifs with isMe
    · rw [World.isMe, get_eq present, beq_iff_eq] at isMe
      rcases owned.named var value present with ⟨tag, -⟩ | ⟨index', id, bound', tag, content⟩
      · have absent : world.isMe var (BitVec.ofNat 64 index) = false :=
          isMe_none (by rw [get_eq present, tag]) bound
        rw [World.isMe, get_eq present, isMe, beq_self_eq_true] at absent
        cases absent
      · rw [toIndex_succ tag, ← BitVec.toNat_inj, BitVec.toNat_ofNat, BitVec.toNat_ofNat] at isMe
        obtain rfl : index' = index := by omega
        have fine : world.grab var index' = world := by
          unfold grab
          rw [get_eq present, content]
          simp
        rw [fine]
        exact owned
    · exact owned
  | destruct var =>
    rw [run, release_eq]
    exact owned.update_empty (owned.not_alive bare) (.inl rfl)

omit [DecidableEq Var] in
/-- An object that is neither alive nor destroyed. -/
theorem not_owned_of_lost (id : ℕ) (bound : id < world.constructed)
    (undestroyed : world.destroyed.count id = 0) (dead : ∀ var, ¬ world.Alive var id) :
    ¬ world.Owned Types := by
  intro owned
  rcases owned.once id bound with ⟨var, holds⟩ | destroyed
  · exact dead var holds
  · omega

omit [DecidableEq Var] in
/-- An object in a `OneOf` whose tag says that there is none. -/
theorem not_owned_of_tag {var : Var} {value : OneOf} (there : world.objects var = some value)
    (tag : value.mType = 0) (content : value.mValue ≠ none) : ¬ world.Owned Types := by
  intro owned
  rw [owned.mValue_none there tag] at content
  exact content rfl

/-- The object that is constructed over is lost. -/
theorem not_owned_place (owned : world.Owned Types) {var : Var} {index id : ℕ}
    (holds : world.Alive var id) : ¬ (world.place var index).Owned Types := by
  obtain ⟨bound, undestroyed, single⟩ := owned.alive var id holds
  refine not_owned_of_lost id (Nat.lt_succ_of_lt bound) undestroyed fun other alive => ?_
  by_cases same : other = var
  · subst same
    obtain ⟨index', content⟩ := (alive_iff (place_self world other index)).mp alive
    have := (Prod.mk.inj (Option.some.inj content)).2
    omega
  · obtain ⟨value, index', there, content⟩ := alive
    rw [place_of_ne world index same] at there
    exact same (single other ⟨value, index', there, content⟩)

/-- A call that is not harmless leaves an object that is not owned. -/
theorem not_owned_run (owned : world.Owned Types) {call : OneOfCall Var}
    (allowed : call.Allowed Types world) (harmful : ¬ call.Bare world) :
    ¬ (call.run Types world).Owned Types := by
  cases call with
  | constructNone var => exact (harmful trivial).elim
  | constructType var type => exact (harmful trivial).elim
  | constructValue var index => exact (harmful trivial).elim
  | copyConstruct var other => exact (harmful trivial).elim
  | read var index => exact (harmful trivial).elim
  | moveConstruct var old =>
    obtain ⟨new, -⟩ := allowed
    obtain ⟨value, index, id, source, bound, tag, content⟩ := owned.holds_of_not_empty harmful
    have different : old ≠ var := by
      rintro rfl
      cases new.symm.trans source
    change ¬ (((world.allocate var (world.get old).mType).copyConstructByIndex Types old
      var).destroy Types old).Owned Types
    rw [allocate_some new source tag bound content, destroy_eq,
      setType_eq ((place_of_ne world index different).trans source)]
    refine not_owned_of_tag (put_self ..) rfl ?_
    rw [content]
    exact Option.some_ne_none _
  | copyAssign var other =>
    obtain ⟨-, there⟩ := allowed
    obtain ⟨target, indexTarget, idTarget, present, -, -, held⟩ := owned.holds_of_not_empty harmful
    obtain ⟨value, source⟩ := Option.ne_none_iff_exists'.mp there
    rw [run]
    rcases owned.named other value source with ⟨tag, -⟩ | ⟨index, id, bound, tag, content⟩
    · rw [assign_none present source tag]
      refine not_owned_of_tag (put_self ..) rfl ?_
      rw [held]
      exact Option.some_ne_none _
    · rw [assign_some present source tag bound content]
      exact not_owned_place owned ⟨target, indexTarget, present, held⟩
  | moveAssign var other =>
    obtain ⟨there, thereOther⟩ := allowed
    change ¬ (((world.setType var (world.get other).mType).copyConstructByIndex Types other
      var).destroy Types other).Owned Types
    by_cases empty : world.Empty other
    · obtain ⟨target, indexTarget, idTarget, present, -, tagTarget, held⟩ :=
        owned.holds_of_not_empty fun emptyTarget => harmful ⟨emptyTarget, empty⟩
      obtain ⟨value, source⟩ := Option.ne_none_iff_exists'.mp thereOther
      have tag := empty value source
      have different : other ≠ var := by
        rintro rfl
        obtain rfl := Option.some.inj (present.symm.trans source)
        omega
      have kept := setType_same
        ((put_of_ne world (some { target with mType := 0 }) different).trans source)
      rw [tag] at kept
      rw [assign_none present source tag, destroy_eq, kept]
      refine not_owned_of_tag (put_self ..) rfl ?_
      rw [held]
      exact Option.some_ne_none _
    · obtain ⟨value, index, id, source, bound, tag, content⟩ := owned.holds_of_not_empty empty
      obtain ⟨target, present⟩ := Option.ne_none_iff_exists'.mp there
      obtain ⟨after, found, filled⟩ : ∃ after, (world.place var index).objects other = some after ∧
          after.mValue ≠ none := by
        by_cases same : other = var
        · subst same
          exact ⟨_, place_self .., Option.some_ne_none _⟩
        · refine ⟨value, (place_of_ne world index same).trans source, ?_⟩
          rw [content]
          exact Option.some_ne_none _
      rw [assign_some present source tag bound content, destroy_eq, setType_eq found]
      exact not_owned_of_tag (put_self ..) rfl filled
  | assignValue var temporary index =>
    obtain ⟨there, new, bound⟩ := allowed
    obtain ⟨target, present⟩ := Option.ne_none_iff_exists'.mp there
    have different : var ≠ temporary := by
      rintro rfl
      exact there new
    have effect : OneOfCall.run Types world (.assignValue var temporary index) =
        (((world.place temporary index).place var index).setType temporary 0).put temporary
          none := by
      rw [run, allocate_construct]
      rw [moveConstructByIndex_eq, assign_some ((place_of_ne world index different).trans present)
        (place_self ..) rfl bound rfl, destroy_eq, release_eq]
    have found : ((world.place temporary index).place var index).objects temporary =
        some { mType := index + 1, mValue := some (index, world.constructed) } := by
      rw [place_of_ne _ _ different.symm, place_self]
    rw [effect, setType_eq found]
    -- the object of the temporary is the one that is lost
    refine not_owned_of_lost world.constructed
      (show world.constructed < world.constructed + 1 + 1 by omega) (owned.beyond _ le_rfl) ?_
    rintro other ⟨value, index', there, content⟩
    by_cases temp : other = temporary
    · rw [temp, put_self] at there
      cases there
    · rw [put_of_ne _ _ temp, put_of_ne _ _ temp] at there
      by_cases same : other = var
      · rw [same, place_self] at there
        obtain rfl := Option.some.inj there
        have := (Prod.mk.inj (Option.some.inj content)).2
        change world.constructed + 1 = world.constructed at this
        omega
      · rw [place_of_ne _ _ same, place_of_ne _ _ temp] at there
        exact lt_irrefl _ (owned.alive other _ ⟨value, index', there, content⟩).1
  | destruct var =>
    obtain ⟨value, index, id, present, -, -, content⟩ := owned.holds_of_not_empty harmful
    obtain ⟨older, undestroyed, single⟩ := owned.alive var id ⟨value, index, present, content⟩
    rw [run, release_eq]
    refine not_owned_of_lost id older undestroyed ?_
    rintro other ⟨value', index', there, content'⟩
    by_cases same : other = var
    · rw [same, put_self] at there
      cases there
    · rw [put_of_ne _ _ same] at there
      exact same (single other ⟨value', index', there, content'⟩)

/-- Along a run every object stays owned precisely when every call is harmless. -/
theorem runMeets_owning_iff (Types : U64) (calls : List (OneOfCall Var)) :
    RunMeets (step Types) (Owning Types) ({} : World Var) calls ↔
      RunMeets (step Types) (Harmless Types) ({} : World Var) calls := by
  have init : World.Owned Types ({} : World Var) :=
    { named := fun _ _ there => nomatch there
      reads := rfl
      once := fun _ bound => (Nat.not_lt_zero _ bound).elim
      alive := fun _ _ holds => by
        obtain ⟨_, _, there, -⟩ := holds
        cases there
      beyond := fun _ _ => rfl }
  have outcome {world after : World Var} {call : OneOfCall Var}
      (stepped : step Types world call = some after) :
      call.Allowed Types world ∧ call.run Types world = after := by
    unfold step at stepped
    split_ifs at stepped with allowed
    exact ⟨allowed, Option.some.inj stepped⟩
  have preserved (world : World Var) (call : OneOfCall Var) (after : World Var)
      (owned : world.Owned Types) (harmless : call.Harmless Types world)
      (stepped : step Types world call = some after) : after.Owned Types := by
    obtain ⟨allowed, rfl⟩ := outcome stepped
    exact owned_run owned allowed (harmless allowed)
  refine (runMeets_congr preserved (fun world call owned => ?_) init calls).symm
  constructor
  · exact fun harmless after stepped => preserved world call after owned harmless stepped
  · intro owning allowed
    by_contra harmful
    exact not_owned_run owned allowed harmful (owning _ (if_pos allowed))

/-- One object, constructed and destructed: its alternative is never destroyed. -/
theorem destructed_not_owning :
    ¬ RunMeets (step 2) (Owning 2) ({} : World ℕ) [.constructValue 0 1, .destruct 0] := by
  rintro ⟨-, rest⟩
  obtain ⟨destructed, -⟩ := rest _ (if_pos ⟨rfl, by decide⟩)
  have owned := destructed _ (if_pos (by decide))
  rcases owned.once 0 (by decide) with ⟨var, value, index, there, -⟩ | destroyed
  · rw [run, run, allocate_construct, release_eq] at there
    by_cases same : var = 0
    · rw [same, put_self] at there
      cases there
    · rw [put_of_ne _ _ same, place_of_ne _ _ same] at there
      cases there
  · exact absurd destroyed (by decide)

end OneOfCall

end Hakkun.Container
