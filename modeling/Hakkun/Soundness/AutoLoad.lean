import Hakkun.Machine.Core.Fuel
import Hakkun.Model.Ro.AutoLoad

/-! # Module discovery

Regions that tile the address space follow each other, and the walk reads them as modules: text, at
least one region that can be read alone, and data. It ends at a free region between modules or at a
region that does not fit. Where the tiling ends at the very last address the next one is 0, so that
the walk goes on with the first region.
-/

namespace Hakkun.Ro

open Machine.Core Svc

variable {query : QueryFunc} {addr : Ptr} {infos : List Svc.MemoryInfo}

/-! ## Consecutive regions -/

/-- From an address on the query gives these regions, one behind the other. -/
def Follows (query : QueryFunc) : Ptr → List Svc.MemoryInfo → Prop
  | _, [] => True
  | addr, info :: rest => query addr = some info ∧ Follows query (nextAddress info) rest

/-- The address behind regions that begin at an address. -/
def behind (addr : Ptr) (infos : List Svc.MemoryInfo) : Ptr :=
  infos.foldl (fun _ info => nextAddress info) addr

theorem behind_append (addr : Ptr) (first second : List Svc.MemoryInfo) :
    behind addr (first ++ second) = behind (behind addr first) second := List.foldl_append

theorem follows_append {first second : List Svc.MemoryInfo} :
    Follows query addr (first ++ second) ↔
      Follows query addr first ∧ Follows query (behind addr first) second := by
  induction first generalizing addr with
  | nil => exact (and_iff_right trivial).symm
  | cons info first ih =>
    rw [List.cons_append, Follows, Follows, ih, and_assoc]
    rfl

/-! ## Modules -/

def IsText (info : Svc.MemoryInfo) : Prop := info.state ≠ .Free ∧ info.permission = .ReadExecute

def AllRead (infos : List Svc.MemoryInfo) : Prop := ∀ info ∈ infos, info.permission = .Read

/-- The regions of a module. -/
structure AutoLoadModule where
  text : Svc.MemoryInfo
  rodata : Svc.MemoryInfo
  more : List Svc.MemoryInfo
  data : Svc.MemoryInfo
  isText : IsText text
  isRodata : AllRead (rodata :: more)
  isData : data.permission = .ReadWrite

namespace AutoLoadModule

def regions (module : AutoLoadModule) : List Svc.MemoryInfo :=
  module.text :: module.rodata :: (module.more ++ [module.data])

/-- What the callback is told about a module. -/
def bases (module : AutoLoadModule) : ModuleBases :=
  ⟨module.text.base_address, module.rodata.base_address, module.data.base_address⟩

/-- The regions of modules back to back. -/
def regionsOf (modules : List AutoLoadModule) : List Svc.MemoryInfo := modules.flatMap regions

theorem regionsOf_cons (module : AutoLoadModule) (modules : List AutoLoadModule) :
    regionsOf (module :: modules) = module.regions ++ regionsOf modules := List.flatMap_cons

theorem regionsOf_append (first second : List AutoLoadModule) :
    regionsOf (first ++ second) = regionsOf first ++ regionsOf second := List.flatMap_append

end AutoLoadModule

open AutoLoadModule

/-- Regions of which the last one does not fit. -/
inductive Broken : List Svc.MemoryInfo → Prop where
  | text (bad : Svc.MemoryInfo) (used : bad.state ≠ .Free) (other : bad.permission ≠ .ReadExecute) :
    Broken [bad]
  | rodata (text bad : Svc.MemoryInfo) (isText : IsText text) (other : bad.permission ≠ .Read) :
    Broken [text, bad]
  | data (text rodata : Svc.MemoryInfo) (more : List Svc.MemoryInfo) (bad : Svc.MemoryInfo)
    (isText : IsText text) (isRodata : AllRead (rodata :: more)) (other : bad.permission ≠ .Read)
    (unwritable : bad.permission ≠ .ReadWrite) : Broken (text :: rodata :: (more ++ [bad]))

/-- Regions that a module can begin with. -/
inductive Pending : List Svc.MemoryInfo → Prop where
  | start : Pending []
  | text (text : Svc.MemoryInfo) (isText : IsText text) : Pending [text]
  | rodata (text rodata : Svc.MemoryInfo) (more : List Svc.MemoryInfo) (isText : IsText text)
    (isRodata : AllRead (rodata :: more)) : Pending (text :: rodata :: more)

/-! ## The walk over a module -/

/-- The loop passes over regions that can be read alone. -/
theorem skipReadOnly_add {info last : Svc.MemoryInfo} {reads : List Svc.MemoryInfo} (fuel : ℕ)
    (read : AllRead (info :: reads))
    (follows : Follows query (nextAddress info) (reads ++ [last])) :
    skipReadOnly query (fuel + (reads.length + 1)) info = skipReadOnly query fuel last := by
  induction reads generalizing info with
  | nil =>
    rw [List.length_nil, Nat.zero_add, skipReadOnly, if_pos (read info (List.mem_cons_self ..)),
      follows.1]
  | cons next reads ih =>
    rw [List.length_cons, ← Nat.add_assoc, skipReadOnly,
      if_pos (read info (List.mem_cons_self ..)), follows.1]
    exact ih (fun other member => read other (List.mem_cons_of_mem _ member)) follows.2

theorem skipReadOnly_of_not_read {info : Svc.MemoryInfo} (fuel : ℕ)
    (other : info.permission ≠ .Read) : skipReadOnly query (fuel + 1) info = some (.ok info) :=
  if_neg other

/-- The walk from text and rodata on. -/
theorem forEach_rodata {text rodata last : Svc.MemoryInfo} {more : List Svc.MemoryInfo} (fuel : ℕ)
    (isText : IsText text) (isRodata : AllRead (rodata :: more))
    (follows : Follows query addr (text :: rodata :: (more ++ [last])))
    (other : last.permission ≠ .Read) :
    forEachAutoLoadModuleImpl query (fuel + 1 + (more.length + 1) + 1) addr =
      if last.permission ≠ .ReadWrite then ([], some (.error .UnusualSectionLayout))
      else (forEachAutoLoadModuleImpl query (fuel + 1 + (more.length + 1)) (nextAddress last)).push
        ⟨text.base_address, rodata.base_address, last.base_address⟩ := by
  have skipped := (skipReadOnly_add (fuel + 1) isRodata follows.2.2).trans
    (skipReadOnly_of_not_read fuel other)
  rw [forEachAutoLoadModuleImpl, follows.1]
  dsimp only
  rw [if_neg isText.1, if_neg (not_not.mpr isText.2), follows.2.1]
  dsimp only
  rw [if_neg (not_not.mpr (isRodata rodata (List.mem_cons_self ..))), skipped]

theorem AutoLoadModule.behind_regions (module : AutoLoadModule) (addr : Ptr) :
    behind addr module.regions = nextAddress module.data := by
  rw [regions, behind, List.foldl_cons, List.foldl_cons, List.foldl_append]
  rfl

/-- A walk over a module goes on behind it. -/
theorem forEach_module {module : AutoLoadModule} (fuel : ℕ)
    (follows : Follows query addr module.regions) :
    forEachAutoLoadModuleImpl query (fuel + 1 + (module.more.length + 1) + 1) addr =
      (forEachAutoLoadModuleImpl query (fuel + 1 + (module.more.length + 1))
        (behind addr module.regions)).push module.bases := by
  have other : module.data.permission ≠ .Read := by
    rw [module.isData]
    nofun
  rw [forEach_rodata fuel module.isText module.isRodata follows other,
    if_neg (not_not.mpr module.isData), module.behind_regions]
  rfl

/-- With enough fuel, one level of the walk over a module. -/
theorem eventually_forEach_module {module : AutoLoadModule}
    (follows : Follows query addr module.regions) :
    ∀ᶠ fuel in Filter.atTop, forEachAutoLoadModuleImpl query (fuel + 1) addr =
      (forEachAutoLoadModuleImpl query fuel (behind addr module.regions)).push module.bases := by
  refine Filter.eventually_atTop.mpr ⟨1 + (module.more.length + 1), fun fuel enough => ?_⟩
  obtain ⟨left, rfl⟩ := Nat.exists_eq_add_of_le' enough
  rw [← Nat.add_assoc left]
  exact forEach_module left follows

/-- What the walk ends with. -/
def Walks (query : QueryFunc) (addr : Ptr) (result : WalkResult) : Prop :=
  Ends (fun fuel => forEachAutoLoadModuleImpl query fuel addr) result

theorem Walks.of_module {module : AutoLoadModule} {result : WalkResult}
    (follows : Follows query addr module.regions)
    (walks : Walks query (behind addr module.regions) result) :
    Walks query addr (result.push module.bases) := by
  apply Ends.of_succ
  filter_upwards [eventually_forEach_module follows, walks] with fuel same later
  rw [same, later]

theorem Walks.behind_module {module : AutoLoadModule} {result : WalkResult}
    (follows : Follows query addr module.regions) (walks : Walks query addr result) :
    ∃ later, result = later.push module.bases ∧
      Walks query (behind addr module.regions) later := by
  have shifted := (Filter.tendsto_add_atTop_nat 1).eventually walks
  have both := (eventually_forEach_module follows).and shifted
  obtain ⟨enough, same, given⟩ := both.exists
  have given : forEachAutoLoadModuleImpl query (enough + 1) addr = result := given
  refine ⟨(result.1.tail, result.2), ?_, ?_⟩
  · rw [← given, same]
    rfl
  · filter_upwards [both] with fuel here
    have ended : forEachAutoLoadModuleImpl query (fuel + 1) addr = result := here.2
    rw [← ended, here.1]
    rfl

/-- The calls for modules, before those of a later walk. -/
def pushAll (modules : List AutoLoadModule) (later : WalkResult) : WalkResult :=
  (modules.map bases ++ later.1, later.2)

variable {modules : List AutoLoadModule} {result : WalkResult}

theorem Walks.of_modules (follows : Follows query addr (regionsOf modules))
    (walks : Walks query (behind addr (regionsOf modules)) result) :
    Walks query addr (pushAll modules result) := by
  induction modules generalizing addr with
  | nil => exact walks
  | cons module modules ih =>
    rw [regionsOf_cons] at follows walks
    obtain ⟨here, later⟩ := follows_append.mp follows
    rw [behind_append] at walks
    exact Walks.of_module here (ih later walks)

theorem Walks.behind_modules (follows : Follows query addr (regionsOf modules))
    (walks : Walks query addr result) :
    ∃ later, result = pushAll modules later ∧
      Walks query (behind addr (regionsOf modules)) later := by
  induction modules generalizing addr result with
  | nil => exact ⟨result, rfl, walks⟩
  | cons module modules ih =>
    rw [regionsOf_cons] at follows ⊢
    obtain ⟨here, later⟩ := follows_append.mp follows
    obtain ⟨rest, rfl, inner⟩ := walks.behind_module here
    obtain ⟨last, rfl, innermost⟩ := ih later inner
    rw [behind_append]
    exact ⟨last, rfl, innermost⟩

/-! ## The end of a walk -/

theorem Walks.of_free {free : Svc.MemoryInfo} (given : query addr = some free)
    (isFree : free.state = .Free) : Walks query addr ([], some (.ok ())) := by
  refine .of_succ (.of_forall fun fuel => ?_)
  rw [forEachAutoLoadModuleImpl, given]
  exact if_pos isFree

/-- A region that does not fit ends the walk. -/
theorem Walks.of_broken {broken : List Svc.MemoryInfo} (isBroken : Broken broken)
    (follows : Follows query addr broken) :
    Walks query addr ([], some (.error .UnusualSectionLayout)) := by
  cases isBroken with
  | text bad used other =>
    refine .of_succ (.of_forall fun fuel => ?_)
    rw [forEachAutoLoadModuleImpl, follows.1]
    dsimp only
    rw [if_neg used, if_pos other]
  | rodata text bad isText other =>
    refine .of_succ (.of_forall fun fuel => ?_)
    rw [forEachAutoLoadModuleImpl, follows.1]
    dsimp only
    rw [if_neg isText.1, if_neg (not_not.mpr isText.2), follows.2.1]
    exact if_pos other
  | data text rodata more bad isText isRodata other unwritable =>
    refine Filter.eventually_atTop.mpr ⟨1 + (more.length + 1) + 1, fun fuel enough => ?_⟩
    obtain ⟨left, rfl⟩ := Nat.exists_eq_add_of_le' enough
    rw [← Nat.add_assoc, ← Nat.add_assoc left]
    exact (forEach_rodata left isText isRodata follows other).trans (if_pos unwritable)

/-- The loop over regions that can be read alone ends where a query fails. -/
theorem skipReadOnly_of_none {info : Svc.MemoryInfo} {reads : List Svc.MemoryInfo} (fuel : ℕ)
    (read : AllRead (info :: reads)) (follows : Follows query (nextAddress info) reads)
    (fails : query (behind (nextAddress info) reads) = none) :
    skipReadOnly query (fuel + (reads.length + 1)) info = some (.error .queryFailed) := by
  induction reads generalizing info with
  | nil =>
    have failed : query (nextAddress info) = none := fails
    rw [List.length_nil, Nat.zero_add, skipReadOnly, if_pos (read info (List.mem_cons_self ..)),
      failed]
  | cons next reads ih =>
    rw [List.length_cons, ← Nat.add_assoc, skipReadOnly,
      if_pos (read info (List.mem_cons_self ..)), follows.1]
    exact ih (fun other member => read other (List.mem_cons_of_mem _ member)) follows.2 fails

/-- A query that fails ends the walk, wherever a module has come to. -/
theorem Walks.of_pending {pending : List Svc.MemoryInfo} (isPending : Pending pending)
    (follows : Follows query addr pending) (fails : query (behind addr pending) = none) :
    Walks query addr ([], some (.error .queryFailed)) := by
  cases isPending with
  | start =>
    have failed : query addr = none := fails
    refine .of_succ (.of_forall fun fuel => ?_)
    rw [forEachAutoLoadModuleImpl, failed]
  | text text isText =>
    have failed : query (nextAddress text) = none := fails
    refine .of_succ (.of_forall fun fuel => ?_)
    rw [forEachAutoLoadModuleImpl, follows.1]
    dsimp only
    rw [if_neg isText.1, if_neg (not_not.mpr isText.2), failed]
  | rodata text rodata more isText isRodata =>
    refine Filter.eventually_atTop.mpr ⟨more.length + 1 + 1, fun fuel enough => ?_⟩
    obtain ⟨left, rfl⟩ := Nat.exists_eq_add_of_le' enough
    change forEachAutoLoadModuleImpl query (left + (more.length + 1) + 1) addr = _
    rw [forEachAutoLoadModuleImpl, follows.1]
    dsimp only
    rw [if_neg isText.1, if_neg (not_not.mpr isText.2), follows.2.1]
    dsimp only
    rw [if_neg (not_not.mpr (isRodata rodata (List.mem_cons_self ..))),
      skipReadOnly_of_none left isRodata follows.2.2 fails]

end Hakkun.Ro
