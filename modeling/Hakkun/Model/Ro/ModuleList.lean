import Hakkun.Model.Ro.RoUtil
import Hakkun.Model.Util.Sort

/-! # The list of modules

Translated from `RoUtil::initModuleList` of `hk/ro/RoUtil.cpp` and `mapRw` of `hk/ro/RoModule.cpp`.
`sModules` is an array in memory whose elements point to modules of the loader. An abort has no
result. The build id, and what is logged, is left out.
-/

namespace Hakkun.Ro

open Machine Util

def cMaxModuleNum : ℕ := 1 + 1 + 10 + 1

/-- `hk::ro::RoModule` with its pointer to a module of the loader. -/
structure ListedModule (M : Type) extends LoadedModule where
  mModule : Option M

variable {M : Type}

/-- Modules are copied as bytes. -/
def ListedModule.objectType (M : Type) : ObjectType (ListedModule M) where
  trivial := true
  moved := id
  sizeOf := 120
  moved_of_trivial _ _ := rfl
  sizeOf_pos := by decide

/-- `RoModule::mapRw`, for the addresses that `mapRoToRw` gives. -/
def LoadedModule.mapRw (mapRoToRw : Ptr → U64 → Except String Ptr) (module : LoadedModule) :
    Except String LoadedModule :=
  if module.mTextRwMapping.mStart ≠ 0 then .error "AlreadyMapped"
  else if module.mRodataRwMapping.mStart ≠ 0 then .error "AlreadyMapped"
  else do
    let text ← mapRoToRw module.mTextRange.mStart module.mTextRange.mSize
    let rodata ← mapRoToRw module.mRodataRange.mStart module.mRodataRange.mSize
    .ok { module with
      mTextRwMapping := ⟨text, module.mTextRange.mSize⟩
      mRodataRwMapping := ⟨rodata, module.mRodataRange.mSize⟩ }

/-- The modules of the loader, and what the kernel answers. -/
structure Loader (M : Type) where
  m_Base : M → Ptr
  hkRtldModule : M
  queryMemory : QueryMemory
  mapRoToRw : Ptr → U64 → Except String Ptr

/-- The static variables. -/
structure ModuleList (M : Type) where
  memory : Machine.Memory (ListedModule M)
  sNumModules : ℕ
  sSelfModuleIdx : Option ℕ

/-- An assignment to a member of an element. -/
def assign (memory : Machine.Memory (ListedModule M)) (address : Address)
    (change : ListedModule M → ListedModule M) : Machine.Memory (ListedModule M) :=
  { memory.touch address with
    slots := Function.update memory.slots address
      ((memory.slots address).map fun object => { object with value := object.value.map change }) }

/-- The loop over `g_pAutoLoadList`. -/
def collectModules (sModules : Address) (autoLoadList : List (Option M)) (sNumModules : ℕ)
    (memory : Machine.Memory (ListedModule M)) : Machine.Memory (ListedModule M) :=
  match autoLoadList with
  | [] => memory
  | rtldModule :: rest =>
    let memory := assign memory (sModules.offset sNumModules) fun module =>
      { module with mModule := rtldModule }
    collectModules sModules rest (sNumModules + 1) memory

/-- The comparison of two modules. -/
def compareBase (loader : Loader M) (a b : ListedModule M) : Option Bool :=
  match a.mModule, b.mModule with
  | some first, some second =>
    if loader.m_Base first = 0 ∨ loader.m_Base second = 0 then none
    else some (decide (loader.m_Base first < loader.m_Base second))
  | _, _ => none

/-- The body of the loop over `sModules`. -/
def prepareModule [DecidableEq M] (loader : Loader M) (fuel : ℕ) (sModules : Address)
    (list : ModuleList M) (i : ℕ) : Option (ModuleList M) := do
  let memory := list.memory.touch (sModules.offset i)
  let module ← memory.read (sModules.offset i)
  let nnModule ← module.mModule
  let sSelfModuleIdx := if nnModule = loader.hkRtldModule then some i else list.sSelfModuleIdx
  if loader.m_Base nnModule = 0 then none
  else do
    let found ← (module.findRanges loader.queryMemory fuel (loader.m_Base nnModule)).toOption
    let mapped ← (found.mapRw loader.mapRoToRw).toOption
    some { list with
      memory := assign memory (sModules.offset i) fun module =>
        { module with toLoadedModule := mapped }
      sSelfModuleIdx := sSelfModuleIdx }

/-- `RoUtil::initModuleList`, for the modules that `g_pAutoLoadList` has. -/
def initModuleList [DecidableEq M] (loader : Loader M) (fuel : ℕ) (sModules : Address)
    (autoLoadList : List (Option M)) (list : ModuleList M) : Option (ModuleList M) := do
  let sNumModules := autoLoadList.length
  let memory := collectModules sModules autoLoadList 0 list.memory
  let memory ← insertionSort (ListedModule.objectType M) (compareBase loader) sModules sNumModules
    memory
  let list ← (List.range sNumModules).foldlM (prepareModule loader fuel sModules)
    { list with memory := memory, sNumModules := sNumModules }
  if list.sSelfModuleIdx.isSome then some list else none

end Hakkun.Ro
