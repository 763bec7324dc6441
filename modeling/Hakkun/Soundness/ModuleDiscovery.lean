import Hakkun.Soundness.AutoLoad

/-! # Module discovery over a whole address space

A layout tiles the address space with regions, and the query gives the region that an address lies
in. From the beginning of a region on, modules that a free region follows are reported one by one,
whatever the layout. That everything else ends with an error takes the regions to end before the
last address: behind that comes address 0 again, and a walk that modules have brought there goes on
with the regions it may have come from.
-/

namespace Hakkun.Ro

open Machine.Core Svc AutoLoadModule

/-! ## Layouts -/

/-- A region that is not empty. -/
structure Region where
  size : U64
  state : MemoryState
  permission : MemoryPermission
  positive : 0 < size.toNat

def Region.at (region : Region) (base : ℕ) : Svc.MemoryInfo :=
  ⟨BitVec.ofNat 64 base, region.size, region.state, region.permission⟩

/-- How far regions reach together. -/
def total (regions : List Region) : ℕ := (regions.map fun region => region.size.toNat).sum

theorem total_cons (region : Region) (regions : List Region) :
    total (region :: regions) = region.size.toNat + total regions := List.sum_cons

theorem total_append (first second : List Region) :
    total (first ++ second) = total first + total second := by
  rw [total, List.map_append, List.sum_append]
  rfl

/-- What is reported of regions of which the first one begins at an address. -/
def place : ℕ → List Region → List Svc.MemoryInfo
  | _, [] => []
  | base, region :: rest => region.at base :: place (base + region.size.toNat) rest

theorem place_append (base : ℕ) (first second : List Region) :
    place base (first ++ second) = place base first ++ place (base + total first) second := by
  induction first generalizing base with
  | nil => rfl
  | cons region first ih =>
    rw [List.cons_append, place, ih, place, total_cons, List.cons_append, Nat.add_assoc]

/-- The first of the regions that end behind an address. -/
def queryIn (addr : Ptr) : ℕ → List Region → Option Svc.MemoryInfo
  | _, [] => none
  | base, region :: rest =>
    if addr.toNat < base + region.size.toNat then some (region.at base)
    else queryIn addr (base + region.size.toNat) rest

theorem queryIn_append {addr : Ptr} {base : ℕ} {first : List Region} (second : List Region)
    (passed : base + total first ≤ addr.toNat) :
    queryIn addr base (first ++ second) = queryIn addr (base + total first) second := by
  induction first generalizing base with
  | nil => rfl
  | cons region first ih =>
    rw [total_cons, ← Nat.add_assoc] at passed ⊢
    rw [List.cons_append, queryIn, if_neg (by omega), ih passed]

/-- Regions that tile the addresses from 0 on. -/
structure Layout where
  regions : List Region
  bound : total regions ≤ 2 ^ 64

namespace Layout

variable (layout : Layout)

def query : QueryFunc := fun addr => queryIn addr 0 layout.regions

/-- Where a region begins. -/
def startOf (start : ℕ) : ℕ := total (layout.regions.take start)

def infos : List Svc.MemoryInfo := place 0 layout.regions

/-- The regions from one on. -/
def infosFrom (start : ℕ) : List Svc.MemoryInfo :=
  place (layout.startOf start) (layout.regions.drop start)

theorem infos_eq (start : ℕ) :
    layout.infos = place 0 (layout.regions.take start) ++ layout.infosFrom start := by
  have placed := place_append 0 (layout.regions.take start) (layout.regions.drop start)
  rw [List.take_append_drop, Nat.zero_add] at placed
  exact placed

theorem infosFrom_suffix (start : ℕ) : layout.infosFrom start <:+ layout.infos :=
  ⟨_, (layout.infos_eq start).symm⟩

end Layout

theorem nextAddress_at (region : Region) (base : ℕ) :
    nextAddress (region.at base) = BitVec.ofNat 64 (base + region.size.toNat) := by
  rw [BitVec.ofNat_add, BitVec.ofNat_toNat, BitVec.setWidth_eq]
  rfl

theorem behind_place (base : ℕ) (regions : List Region) :
    behind (BitVec.ofNat 64 base) (place base regions) =
      BitVec.ofNat 64 (base + total regions) := by
  induction regions generalizing base with
  | nil => rfl
  | cons region regions ih =>
    rw [total_cons, ← Nat.add_assoc, ← ih, ← nextAddress_at]
    rfl

/-- The query gives the regions of a tiling one behind the other. -/
theorem follows_place {layout : Layout} {done rest : List Region}
    (split : layout.regions = done ++ rest) :
    Follows layout.query (BitVec.ofNat 64 (total done)) (place (total done) rest) := by
  induction rest generalizing done with
  | nil => trivial
  | cons region rest ih =>
    have bound := layout.bound
    have positive := region.positive
    rw [split, total_append, total_cons] at bound
    have small : (BitVec.ofNat 64 (total done)).toNat = total done :=
      Nat.mod_eq_of_lt (by omega)
    have found : layout.query (BitVec.ofNat 64 (total done)) = some (region.at (total done)) := by
      rw [Layout.query, split, queryIn_append _ (by omega), queryIn, if_pos (by omega),
        Nat.zero_add]
    have further : total (done ++ [region]) = total done + region.size.toNat := by
      rw [total_append]
      rfl
    have later := ih (by rw [split, List.append_assoc]; rfl : _ = (done ++ [region]) ++ rest)
    rw [further, ← nextAddress_at] at later
    exact ⟨found, later⟩

namespace Layout

variable (layout : Layout)

theorem follows_infosFrom (start : ℕ) :
    Follows layout.query (BitVec.ofNat 64 (layout.startOf start)) (layout.infosFrom start) :=
  follows_place (List.take_append_drop start layout.regions).symm

theorem behind_infosFrom (start : ℕ) :
    behind (BitVec.ofNat 64 (layout.startOf start)) (layout.infosFrom start) =
      BitVec.ofNat 64 (total layout.regions) := by
  rw [infosFrom, behind_place, startOf, ← total_append, List.take_append_drop]

/-- Behind the last region the query fails, unless that is behind the last address. -/
theorem query_total {layout : Layout} (before : total layout.regions < 2 ^ 64) :
    layout.query (BitVec.ofNat 64 (total layout.regions)) = none := by
  have small : (BitVec.ofNat 64 (total layout.regions)).toNat = total layout.regions :=
    Nat.mod_eq_of_lt before
  have passed : queryIn (BitVec.ofNat 64 (total layout.regions)) 0 (layout.regions ++ []) = none :=
    queryIn_append [] (by rw [small, Nat.zero_add])
  rwa [List.append_nil] at passed

/-- Behind the last address comes address 0. -/
theorem address_total {layout : Layout} (full : total layout.regions = 2 ^ 64) :
    BitVec.ofNat 64 (total layout.regions) = BitVec.ofNat 64 (layout.startOf 0) := by
  rw [full]
  exact (by decide : BitVec.ofNat 64 (2 ^ 64) = BitVec.ofNat 64 0)

theorem follows_wrapped {layout : Layout} (full : total layout.regions = 2 ^ 64) :
    Follows layout.query (BitVec.ofNat 64 (total layout.regions)) layout.infos := by
  rw [address_total full]
  exact layout.follows_infosFrom 0

end Layout

/-! ## Reading regions as modules -/

def StartsFree (infos : List Svc.MemoryInfo) : Prop :=
  ∃ free rest, infos = free :: rest ∧ free.state = .Free

def StartsBroken (infos : List Svc.MemoryInfo) : Prop :=
  ∃ broken rest, infos = broken ++ rest ∧ Broken broken

/-- Regions up to the first one that can not only be read. -/
theorem exists_reads (infos : List Svc.MemoryInfo) :
    ∃ reads, AllRead reads ∧ (infos = reads ∨
      ∃ last rest, infos = reads ++ last :: rest ∧ last.permission ≠ .Read) := by
  induction infos with
  | nil => exact ⟨[], nofun, .inl rfl⟩
  | cons info infos ih =>
    rcases eq_or_ne info.permission .Read with read | other
    · obtain ⟨reads, allRead, ends⟩ := ih
      refine ⟨info :: reads, List.forall_mem_cons.mpr ⟨read, allRead⟩, ends.imp ?_ ?_⟩
      · rintro rfl
        rfl
      · rintro ⟨last, rest, rfl, other⟩
        exact ⟨last, rest, rfl, other⟩
    · exact ⟨[], nofun, .inr ⟨info, infos, rfl, other⟩⟩

/-- Regions without a module at their beginning. -/
def Stopped (infos : List Svc.MemoryInfo) : Prop :=
  StartsFree infos ∨ StartsBroken infos ∨ Pending infos

/-- Either the first regions are a module, or the walk does not get over them. -/
theorem module_or_stopped (infos : List Svc.MemoryInfo) :
    (∃ (module : AutoLoadModule) (rest : List Svc.MemoryInfo), infos = module.regions ++ rest) ∨
      Stopped infos := by
  rcases infos with _ | ⟨text, infos⟩
  · exact .inr (.inr (.inr .start))
  rcases eq_or_ne text.state .Free with free | used
  · exact .inr (.inl ⟨text, infos, rfl, free⟩)
  rcases ne_or_eq text.permission .ReadExecute with other | execute
  · exact .inr (.inr (.inl ⟨[text], infos, rfl, .text text used other⟩))
  have isText : IsText text := ⟨used, execute⟩
  rcases infos with _ | ⟨rodata, infos⟩
  · exact .inr (.inr (.inr (.text text isText)))
  rcases ne_or_eq rodata.permission .Read with other | read
  · exact .inr (.inr (.inl ⟨[text, rodata], infos, rfl, .rodata text rodata isText other⟩))
  obtain ⟨more, allRead, same | ⟨last, rest, rfl, other⟩⟩ := exists_reads infos
  · rw [same]
    exact .inr (.inr (.inr (.rodata text rodata more isText
      (List.forall_mem_cons.mpr ⟨read, allRead⟩))))
  have isRodata : AllRead (rodata :: more) := List.forall_mem_cons.mpr ⟨read, allRead⟩
  rcases eq_or_ne last.permission .ReadWrite with isData | unwritable
  · refine .inl ⟨⟨text, rodata, more, last, isText, isRodata, isData⟩, rest, ?_⟩
    rw [regions, List.cons_append, List.cons_append, List.append_assoc]
    rfl
  · refine .inr (.inr (.inl ⟨text :: rodata :: (more ++ [last]), rest, ?_,
      .data text rodata more last isText isRodata other unwritable⟩))
    rw [List.cons_append, List.cons_append, List.append_assoc]
    rfl

/-- Regions are modules, as far as the walk gets. -/
theorem exists_modules (infos : List Svc.MemoryInfo) :
    ∃ modules rest, infos = regionsOf modules ++ rest ∧ Stopped rest := by
  induction length : infos.length using Nat.strong_induction_on generalizing infos with
  | _ count ih =>
    rcases module_or_stopped infos with ⟨module, rest, rfl⟩ | stopped
    · have shorter : rest.length < count := by
        rw [← length, List.length_append, regions, List.length_cons]
        omega
      obtain ⟨modules, last, rfl, stopped⟩ := ih rest.length shorter rest rfl
      exact ⟨module :: modules, last, by rw [regionsOf_cons, List.append_assoc], stopped⟩
    · exact ⟨[], infos, rfl, stopped⟩

/-! ## One reading only -/

theorem Pending.not_data {pending : List Svc.MemoryInfo} (isPending : Pending pending) :
    ∀ info ∈ pending, info.permission ≠ .ReadWrite := by
  cases isPending with
  | start => nofun
  | text text isText =>
    rw [List.forall_mem_singleton, isText.2]
    nofun
  | rodata text rodata more isText isRodata =>
    refine List.forall_mem_cons.mpr ⟨?_, fun info member => ?_⟩
    · rw [isText.2]
      nofun
    · rw [isRodata info member]
      nofun

theorem Pending.of_cons {text : Svc.MemoryInfo} {rest : List Svc.MemoryInfo}
    (isPending : Pending (text :: rest)) : IsText text ∧ AllRead rest := by
  cases isPending with
  | text _ isText => exact ⟨isText, nofun⟩
  | rodata _ rodata more isText isRodata => exact ⟨isText, isRodata⟩

theorem AutoLoadModule.data_mem (module : AutoLoadModule) : module.data ∈ module.regions :=
  List.mem_cons_of_mem _ (List.mem_cons_of_mem _
    (List.mem_append_right _ (List.mem_singleton_self _)))

/-- The end of a run of regions that can be read alone. -/
theorem reads_inj {reads reads' rest rest' : List Svc.MemoryInfo} {last last' : Svc.MemoryInfo}
    (allRead : AllRead reads) (allRead' : AllRead reads') (other : last.permission ≠ .Read)
    (other' : last'.permission ≠ .Read) (same : reads ++ last :: rest = reads' ++ last' :: rest') :
    rest = rest' := by
  induction reads generalizing reads' with
  | nil =>
    rcases reads' with _ | ⟨first', reads'⟩
    · exact (List.cons.inj same).2
    · obtain ⟨rfl, -⟩ := List.cons.inj same
      exact absurd (allRead' last (List.mem_cons_self ..)) other
  | cons first reads ih =>
    rcases reads' with _ | ⟨first', reads'⟩
    · obtain ⟨rfl, -⟩ := List.cons.inj same
      exact absurd (allRead first (List.mem_cons_self ..)) other'
    · exact ih (fun info member => allRead info (List.mem_cons_of_mem _ member))
        (fun info member => allRead' info (List.mem_cons_of_mem _ member)) (List.cons.inj same).2

theorem AutoLoadModule.data_not_read (module : AutoLoadModule) :
    module.data.permission ≠ .Read := by
  rw [module.isData]
  nofun

/-- What follows a module is determined. -/
theorem regions_inj {module module' : AutoLoadModule} {rest rest' : List Svc.MemoryInfo}
    (same : module.regions ++ rest = module'.regions ++ rest') : rest = rest' := by
  simp only [regions, List.cons_append, List.append_assoc, List.nil_append] at same
  obtain ⟨-, same⟩ := List.cons.inj same
  obtain ⟨-, same⟩ := List.cons.inj same
  have allRead := (List.forall_mem_cons.mp module.isRodata).2
  have allRead' := (List.forall_mem_cons.mp module'.isRodata).2
  exact reads_inj allRead allRead' module.data_not_read module'.data_not_read same

/-- Regions that a module can go on behind do not end with a free one between modules. -/
theorem not_free_of_pending {modules modules' : List AutoLoadModule} {free : Svc.MemoryInfo}
    {pending rest : List Svc.MemoryInfo} (isPending : Pending pending)
    (same : regionsOf modules ++ pending = regionsOf modules' ++ free :: rest) :
    free.state ≠ .Free := by
  induction modules' generalizing modules with
  | nil =>
    rcases modules with _ | ⟨module, modules⟩
    · obtain rfl : pending = free :: rest := same
      exact isPending.of_cons.1.1
    · obtain ⟨rfl, -⟩ := List.cons.inj same
      exact module.isText.1
  | cons module' modules' ih =>
    rcases modules with _ | ⟨module, modules⟩
    · obtain rfl : pending = regionsOf (module' :: modules') ++ free :: rest := same
      refine absurd module'.isData (isPending.not_data _ ?_)
      rw [regionsOf_cons, List.append_assoc]
      exact List.mem_append_left _ module'.data_mem
    · rw [regionsOf_cons, regionsOf_cons, List.append_assoc, List.append_assoc] at same
      exact ih (regions_inj same)

/-! ## Bases -/

/-- Regions lie in ascending order. -/
theorem ascending_place {base : ℕ} {regions : List Region} (bound : base + total regions ≤ 2 ^ 64) :
    (∀ info ∈ place base regions, base ≤ info.base_address.toNat) ∧
      (place base regions).Pairwise fun first second =>
        first.base_address < second.base_address := by
  induction regions generalizing base with
  | nil => exact ⟨nofun, .nil⟩
  | cons region regions ih =>
    rw [total_cons] at bound
    have positive := region.positive
    obtain ⟨above, pairwise⟩ := ih (show base + region.size.toNat + total regions ≤ _ by omega)
    have here : (region.at base).base_address.toNat = base := Nat.mod_eq_of_lt (by omega)
    refine ⟨List.forall_mem_cons.mpr ⟨here.ge, fun info member => ?_⟩,
      .cons (fun info member => ?_) pairwise⟩
    · exact (Nat.le_add_right ..).trans (above info member)
    · rw [BitVec.lt_def, here]
      have later := above info member
      omega

/-- The texts of modules are among their regions, in the same order. -/
theorem texts_sublist (modules : List AutoLoadModule) :
    List.Sublist (modules.map AutoLoadModule.text) (regionsOf modules) := by
  induction modules with
  | nil => exact .slnil
  | cons module modules ih =>
    rw [List.map_cons, regionsOf_cons, regions, List.cons_append]
    exact (ih.trans (List.sublist_append_right _ _)).cons_cons _

/-- What follows a region is determined by its base. -/
theorem rest_eq_of_base_eq {infos before before' rest rest' : List Svc.MemoryInfo}
    {info info' : Svc.MemoryInfo}
    (ascending : infos.Pairwise fun first second => first.base_address < second.base_address)
    (split : infos = before ++ info :: rest) (split' : infos = before' ++ info' :: rest')
    (same : info.base_address = info'.base_address) : rest = rest' := by
  induction infos generalizing before before' with
  | nil => exact absurd split (by simp)
  | cons first infos ih =>
    obtain ⟨below, ascending⟩ := List.pairwise_cons.mp ascending
    have apart (other : Svc.MemoryInfo) (member : other ∈ infos) :
        first.base_address ≠ other.base_address := BitVec.ne_of_lt (below other member)
    rcases before with _ | ⟨_, before⟩ <;> rcases before' with _ | ⟨_, before'⟩
    · exact (List.cons.inj split).2.symm.trans (List.cons.inj split').2
    · obtain ⟨rfl, rfl⟩ := List.cons.inj split
      obtain ⟨-, later⟩ := List.cons.inj split'
      refine absurd same (apart info' ?_)
      rw [later]
      exact List.mem_append_right _ (List.mem_cons_self ..)
    · obtain ⟨rfl, rfl⟩ := List.cons.inj split'
      obtain ⟨-, later⟩ := List.cons.inj split
      refine absurd same.symm (apart info ?_)
      rw [later]
      exact List.mem_append_right _ (List.mem_cons_self ..)
    · exact ih ascending (List.cons.inj split).2 (List.cons.inj split').2

namespace Layout

variable {layout : Layout}

theorem ascending_infos :
    layout.infos.Pairwise fun first second => first.base_address < second.base_address :=
  (ascending_place (by rw [Nat.zero_add]; exact layout.bound)).2

variable (layout)

/-- The bases of a whole module of the layout. -/
def Complete (bases : ModuleBases) : Prop :=
  ∃ module : AutoLoadModule, module.regions <:+: layout.infos ∧ module.bases = bases

/-- What the walk promises from the beginning of a region on. -/
structure Discovers (start : Fin layout.regions.length) : Prop where
  found (modules : List AutoLoadModule) (free : Svc.MemoryInfo) (rest : List Svc.MemoryInfo)
    (split : layout.infosFrom start = regionsOf modules ++ free :: rest)
    (isFree : free.state = .Free) :
    Walks layout.query (BitVec.ofNat 64 (layout.startOf start)) (modules.map bases, some (.ok ())) ∧
      (modules.map bases).Pairwise fun first second => first.textBase < second.textBase
  fails (unlike : ∀ modules free rest,
      layout.infosFrom start = regionsOf modules ++ free :: rest → free.state ≠ .Free) :
    ∃ reports error,
      Walks layout.query (BitVec.ofNat 64 (layout.startOf start)) (reports, some (.error error)) ∧
        ∀ bases ∈ reports, layout.Complete bases

/-- Where only modules, and the beginning of one, lie between a region and the last address, the
regions from address 0 on do not fit. -/
structure StopsBehind (start : Fin layout.regions.length) : Prop where
  whole (modules : List AutoLoadModule) (all : layout.infosFrom start = regionsOf modules) :
    ∃ modules' rest, layout.infos = regionsOf modules' ++ rest ∧ StartsBroken rest
  begun (modules : List AutoLoadModule) (pending : List Svc.MemoryInfo)
    (split : layout.infosFrom start = regionsOf modules ++ pending) (isPending : Pending pending)
    (nonempty : pending ≠ []) : StartsBroken (pending ++ layout.infos)

end Layout

theorem pushAll_nil (modules : List AutoLoadModule) (last : Option (Except WalkError Unit)) :
    pushAll modules ([], last) = (modules.map bases, last) := by
  rw [pushAll, List.append_nil]

/-- Modules among the regions of a layout are complete. -/
theorem Layout.complete_of_suffix {layout : Layout} {modules : List AutoLoadModule}
    {rest : List Svc.MemoryInfo} (suffix : regionsOf modules ++ rest <:+ layout.infos) :
    ∀ bases ∈ modules.map AutoLoadModule.bases, layout.Complete bases := by
  rw [List.forall_mem_map]
  intro module member
  have inside : module.regions <:+: regionsOf modules := by
    obtain ⟨before, later, rfl⟩ := List.append_of_mem member
    rw [regionsOf_append, regionsOf_cons, ← List.append_assoc]
    exact List.infix_append _ _ _
  exact ⟨module, inside.trans (((List.prefix_append _ _).isInfix).trans suffix.isInfix), rfl⟩

/-! ## Sufficient -/

section Sufficient

variable {layout : Layout} {start : ℕ} {modules : List AutoLoadModule}
  {rest : List Svc.MemoryInfo} {result : WalkResult}

/-- A walk from a region on passes over modules. -/
theorem walks_from (split : layout.infosFrom start = regionsOf modules ++ rest)
    (walks : Walks layout.query
      (behind (BitVec.ofNat 64 (layout.startOf start)) (regionsOf modules)) result) :
    Walks layout.query (BitVec.ofNat 64 (layout.startOf start)) (pushAll modules result) := by
  have follows := layout.follows_infosFrom start
  rw [split] at follows
  exact Walks.of_modules (follows_append.mp follows).1 walks

/-- What lies behind modules follows them. -/
theorem follows_rest (split : layout.infosFrom start = regionsOf modules ++ rest) :
    Follows layout.query (behind (BitVec.ofNat 64 (layout.startOf start)) (regionsOf modules))
      rest := by
  have follows := layout.follows_infosFrom start
  rw [split] at follows
  exact (follows_append.mp follows).2

theorem behind_rest (split : layout.infosFrom start = regionsOf modules ++ rest) :
    behind (behind (BitVec.ofNat 64 (layout.startOf start)) (regionsOf modules)) rest =
      BitVec.ofNat 64 (total layout.regions) := by
  rw [← behind_append, ← split, layout.behind_infosFrom]

theorem walks_of_startsBroken {query : QueryFunc} {addr : Ptr} {infos : List Svc.MemoryInfo}
    (follows : Follows query addr infos) (stops : StartsBroken infos) :
    Walks query addr ([], some (.error .UnusualSectionLayout)) := by
  obtain ⟨broken, later, rfl, isBroken⟩ := stops
  exact .of_broken isBroken (follows_append.mp follows).1

/-- Modules that a free region follows are reported, in ascending order. -/
theorem walks_of_free {free : Svc.MemoryInfo}
    (split : layout.infosFrom start = regionsOf modules ++ free :: rest)
    (isFree : free.state = .Free) :
    Walks layout.query (BitVec.ofNat 64 (layout.startOf start))
      (modules.map bases, some (.ok ())) := by
  have walks := walks_from split (.of_free (follows_rest split).1 isFree)
  rwa [pushAll_nil] at walks

theorem ascending_modules (split : layout.infosFrom start = regionsOf modules ++ rest) :
    (modules.map bases).Pairwise fun first second => first.textBase < second.textBase := by
  have sublist : List.Sublist (regionsOf modules) layout.infos := by
    have inside := (layout.infosFrom_suffix start).sublist
    rw [split] at inside
    exact (List.sublist_append_left _ _).trans inside
  have texts := layout.ascending_infos.sublist ((texts_sublist modules).trans sublist)
  rw [List.pairwise_map] at texts ⊢
  exact texts

/-- Regions that end before the last address stop every walk that does not find a free one. -/
theorem walks_of_pending_of_lt {pending : List Svc.MemoryInfo}
    (split : layout.infosFrom start = regionsOf modules ++ pending) (isPending : Pending pending)
    (before : total layout.regions < 2 ^ 64) :
    Walks layout.query (BitVec.ofNat 64 (layout.startOf start))
      (modules.map bases, some (.error .queryFailed)) := by
  have fails := layout.query_total before
  rw [← behind_rest split] at fails
  have walks := walks_from split (.of_pending isPending (follows_rest split) fails)
  rwa [pushAll_nil] at walks

/-- Where the walk goes on at address 0. -/
theorem follows_around (full : total layout.regions = 2 ^ 64)
    (split : layout.infosFrom start = regionsOf modules ++ rest) :
    Follows layout.query (behind (BitVec.ofNat 64 (layout.startOf start)) (regionsOf modules))
      (rest ++ layout.infos) := by
  refine follows_append.mpr ⟨follows_rest split, ?_⟩
  rw [behind_rest split]
  exact layout.follows_wrapped full

/-- Regions from address 0 on that do not fit stop a walk behind the last address. -/
theorem walks_of_stopsBehind {start : Fin layout.regions.length}
    {pending : List Svc.MemoryInfo} (full : total layout.regions = 2 ^ 64)
    (stops : layout.StopsBehind start)
    (split : layout.infosFrom start = regionsOf modules ++ pending) (isPending : Pending pending) :
    ∃ reports error,
      Walks layout.query (BitVec.ofNat 64 (layout.startOf start)) (reports, some (.error error)) ∧
        ∀ bases ∈ reports, layout.Complete bases := by
  have complete := Layout.complete_of_suffix (split ▸ layout.infosFrom_suffix start)
  have around := follows_around full split
  rcases eq_or_ne pending [] with rfl | nonempty
  · rw [List.append_nil] at split
    obtain ⟨modules', rest, all, broken⟩ := stops.whole modules split
    have complete' := Layout.complete_of_suffix ⟨[], all.symm⟩
    rw [List.nil_append, all] at around
    obtain ⟨first, later⟩ := follows_append.mp around
    have onward := Walks.of_modules first (walks_of_startsBroken later broken)
    rw [pushAll_nil] at onward
    rw [← List.append_nil (regionsOf modules)] at split
    refine ⟨_, _, walks_from split onward, ?_⟩
    intro bases member
    exact (List.mem_append.mp member).elim (complete bases) (complete' bases)
  · have broken := stops.begun modules pending split isPending nonempty
    have walks := walks_from split (walks_of_startsBroken around broken)
    rw [pushAll_nil] at walks
    exact ⟨_, _, walks, complete⟩

theorem discovers_of_stops {start : Fin layout.regions.length}
    (stops : total layout.regions < 2 ^ 64 ∨ layout.StopsBehind start) :
    layout.Discovers start := by
  constructor
  · intro modules free rest split isFree
    exact ⟨walks_of_free split isFree, ascending_modules split⟩
  intro unlike
  obtain ⟨modules, rest, split, free | broken | isPending⟩ :=
    exists_modules (layout.infosFrom start)
  · obtain ⟨free, rest, rfl, isFree⟩ := free
    exact absurd isFree (unlike modules free rest split)
  · have walks := walks_from split (walks_of_startsBroken (follows_rest split) broken)
    rw [pushAll_nil] at walks
    exact ⟨_, _, walks, Layout.complete_of_suffix (split ▸ layout.infosFrom_suffix start)⟩
  · rcases layout.bound.lt_or_eq with before | full
    · exact ⟨_, _, walks_of_pending_of_lt split isPending before,
        Layout.complete_of_suffix (split ▸ layout.infosFrom_suffix start)⟩
    · exact walks_of_stopsBehind full (stops.resolve_left full.not_lt) split isPending

end Sufficient

/-! ## Necessary -/

section Necessary

variable {layout : Layout} {start : Fin layout.regions.length} {modules : List AutoLoadModule}
  {pending : List Svc.MemoryInfo}

/-- The walk of an error goes on behind modules that reach the last address. -/
theorem exists_walks_around (discovers : layout.Discovers start)
    (split : layout.infosFrom start = regionsOf modules ++ pending) (isPending : Pending pending) :
    ∃ reports error,
      Walks layout.query (behind (BitVec.ofNat 64 (layout.startOf start)) (regionsOf modules))
        (reports, some (.error error)) ∧
      ∀ bases ∈ reports, layout.Complete bases := by
  obtain ⟨reports, error, walks, complete⟩ := discovers.fails fun modules' free rest other =>
    not_free_of_pending isPending (split.symm.trans other)
  have follows := layout.follows_infosFrom start
  rw [split] at follows
  obtain ⟨⟨later, last⟩, same, onward⟩ := walks.behind_modules (follows_append.mp follows).1
  obtain ⟨rfl, rfl⟩ := Prod.mk.inj same
  exact ⟨later, error, onward, fun bases member => complete bases (List.mem_append_right _ member)⟩

theorem infosFrom_ne_nil (start : Fin layout.regions.length) : layout.infosFrom start ≠ [] := by
  rw [Layout.infosFrom, List.drop_eq_getElem_cons start.isLt]
  exact List.cons_ne_nil _ _

/-- The last region of a layout is the last one from any region on. -/
theorem getLast?_infosFrom (start : Fin layout.regions.length) :
    layout.infos.getLast? = (layout.infosFrom start).getLast? := by
  have last := List.getLast?_eq_some_getLast (infosFrom_ne_nil start)
  rw [layout.infos_eq start, List.getLast?_append, last]
  rfl

/-- Modules end with a region that can be written, the beginning of a module does not. -/
theorem nil_of_getLast? {modules modules' : List AutoLoadModule} {infos : List Svc.MemoryInfo}
    (nonempty : infos ≠ []) (all : infos = regionsOf modules) (isPending : Pending pending)
    (same : infos.getLast? = (regionsOf modules' ++ pending).getLast?) : pending = [] := by
  rcases List.eq_nil_or_concat' modules with rfl | ⟨modules, module, rfl⟩
  · exact absurd all nonempty
  by_contra present
  have given := List.getLast?_eq_some_getLast present
  rw [all, regionsOf_append, List.getLast?_append, List.getLast?_append] at same
  have ends : (regionsOf [module]).getLast? = some module.data := by
    rw [regionsOf_cons, regionsOf, List.flatMap_nil, List.append_nil, regions,
      ← List.cons_append, ← List.cons_append, List.getLast?_concat]
  rw [given, ends] at same
  have last : module.data = pending.getLast present := Option.some.inj same
  exact isPending.not_data _ (List.getLast_mem present) (last ▸ module.isData)

/-- A walk does not come back to where it was. -/
theorem nil_of_walks_again {query : QueryFunc} {addr : Ptr} {modules : List AutoLoadModule}
    {result : WalkResult} (follows : Follows query addr (regionsOf modules))
    (again : behind addr (regionsOf modules) = addr) (walks : Walks query addr result) :
    modules = [] := by
  obtain ⟨later, rfl, onward⟩ := walks.behind_modules follows
  rw [again] at onward
  have same := congrArg (fun result => result.1.length) (walks.unique onward)
  simp only [pushAll, List.length_append, List.length_map] at same
  exact List.eq_nil_of_length_eq_zero (by omega)

/-- Behind whole modules, what comes at address 0 stops the walk. -/
theorem exists_broken_of_discovers (discovers : layout.Discovers start)
    (full : total layout.regions = 2 ^ 64) (all : layout.infosFrom start = regionsOf modules) :
    ∃ modules' rest, layout.infos = regionsOf modules' ++ rest ∧ StartsBroken rest := by
  have split := all.trans (List.append_nil _).symm
  obtain ⟨reports, error, walks, -⟩ := exists_walks_around discovers split .start
  have around := follows_around full split
  have again : behind (BitVec.ofNat 64 (layout.startOf start)) (regionsOf modules) =
      BitVec.ofNat 64 (total layout.regions) := behind_rest split
  rw [List.nil_append] at around
  obtain ⟨modules', rest, infos, free | broken | isPending⟩ := exists_modules layout.infos
  · obtain ⟨free, rest, rfl, isFree⟩ := free
    rw [infos] at around
    obtain ⟨first, later⟩ := follows_append.mp around
    have found := Walks.of_modules first (.of_free later.1 isFree)
    exact nomatch (Prod.mk.inj (walks.unique found)).2
  · exact ⟨modules', rest, infos, broken⟩
  · have nil : rest = [] := by
      apply nil_of_getLast? (infosFrom_ne_nil start) all isPending
      rw [← infos, getLast?_infosFrom start]
    rw [nil, List.append_nil] at infos
    have same : behind (BitVec.ofNat 64 (total layout.regions)) (regionsOf modules') =
        BitVec.ofNat 64 (total layout.regions) := by
      have around := layout.behind_infosFrom 0
      have first : layout.infosFrom 0 = layout.infos := rfl
      rwa [first, infos, ← Layout.address_total full] at around
    rw [infos, again] at around
    rw [again] at walks
    have none := nil_of_walks_again around same walks
    have suffix := layout.infosFrom_suffix start
    rw [infos, none] at suffix
    exact absurd (List.suffix_nil.mp suffix) (infosFrom_ne_nil start)

/-- Behind the beginning of a module, what comes at address 0 does not fit. -/
theorem startsBroken_of_discovers (discovers : layout.Discovers start)
    (full : total layout.regions = 2 ^ 64)
    (split : layout.infosFrom start = regionsOf modules ++ pending) (isPending : Pending pending)
    (nonempty : pending ≠ []) : StartsBroken (pending ++ layout.infos) := by
  obtain ⟨reports, error, walks, complete⟩ := exists_walks_around discovers split isPending
  have around := follows_around full split
  obtain ⟨text, begun, rfl⟩ := List.exists_cons_of_ne_nil nonempty
  obtain ⟨before, infos⟩ : ∃ before, layout.infos = before ++ text :: begun := by
    obtain ⟨before, suffix⟩ := layout.infosFrom_suffix start
    refine ⟨before ++ regionsOf modules, ?_⟩
    rw [List.append_assoc, ← split, suffix]
  rcases module_or_stopped (text :: begun ++ layout.infos) with
    ⟨module, rest, merged⟩ | free | broken | inside
  · -- The module has its data behind address 0, so that it is none of the layout.
    obtain ⟨rfl, -⟩ := List.cons.inj merged
    rw [merged] at around
    obtain ⟨later, same, -⟩ := walks.behind_module (follows_append.mp around).1
    obtain ⟨rfl, -⟩ := Prod.mk.inj same
    obtain ⟨other, ⟨first, last, placed⟩, bases⟩ := complete _ (List.mem_cons_self ..)
    have text : module.text.base_address = other.text.base_address :=
      (congrArg ModuleBases.textBase bases).symm
    have rests := rest_eq_of_base_eq layout.ascending_infos infos
      (by rw [← placed, regions, List.append_assoc]; rfl) text
    have data : other.data ∈ module.text :: begun := by
      rw [rests]
      simp
    exact absurd other.isData (isPending.not_data _ data)
  · obtain ⟨free, rest, same, isFree⟩ := free
    obtain ⟨rfl, -⟩ := List.cons.inj same
    exact absurd isFree isPending.of_cons.1.1
  · exact broken
  · refine absurd (inside.of_cons.2 text ?_) ?_
    · rw [infos]
      simp
    · rw [isPending.of_cons.1.2]
      decide

end Necessary

/-- Module discovery is as promised exactly if the regions end before the last address, or what
begins at address 0 does not fit behind the modules that reach it. -/
theorem discovers_iff (layout : Layout) (start : Fin layout.regions.length) :
    layout.Discovers start ↔ total layout.regions < 2 ^ 64 ∨ layout.StopsBehind start := by
  refine ⟨fun discovers => layout.bound.lt_or_eq.imp_right fun full => ⟨?_, ?_⟩,
    discovers_of_stops⟩
  · intro modules all
    exact exists_broken_of_discovers discovers full all
  · intro modules pending split isPending nonempty
    exact startsBroken_of_discovers discovers full split isPending nonempty

/-- A quarter of the address space. -/
def quarter (state : MemoryState) (permission : MemoryPermission) : Region where
  size := 0x4000000000000000
  state := state
  permission := permission
  positive := by decide

/-- A module up to the last address, and a free region at address 0. -/
def topModule : Layout where
  regions := [quarter .Free .other, quarter .other .ReadExecute, quarter .other .Read,
    quarter .other .ReadWrite]
  bound := by decide

/-- Behind a module at the end of the address space the walk finds the free region at address 0. -/
theorem not_discovers :
    ¬ ∀ (layout : Layout) (start : Fin layout.regions.length), layout.Discovers start := by
  intro discovers
  let start : Fin topModule.regions.length := ⟨1, by decide⟩
  let base := topModule.startOf start
  let module : AutoLoadModule := {
    text := (quarter .other .ReadExecute).at base
    rodata := (quarter .other .Read).at (base + (quarter .other .ReadExecute).size.toNat)
    more := []
    data := (quarter .other .ReadWrite).at (base + (quarter .other .ReadExecute).size.toNat +
      (quarter .other .Read).size.toNat)
    isText := ⟨nofun, rfl⟩
    isRodata := List.forall_mem_singleton.mpr rfl
    isData := rfl }
  have split : topModule.infosFrom start = regionsOf [module] ++ [] := rfl
  have full : total topModule.regions = 2 ^ 64 := by decide
  have infos : topModule.infos = (quarter .Free .other).at 0 ::
      place (0 + (quarter .Free .other).size.toNat) (topModule.regions.drop 1) := rfl
  obtain ⟨reports, error, walks, -⟩ := exists_walks_around (discovers topModule start) split .start
  have around := follows_around full split
  rw [infos] at around
  have success := Walks.of_free around.1 rfl
  exact nomatch (Prod.mk.inj (walks.unique success)).2

end Hakkun.Ro
