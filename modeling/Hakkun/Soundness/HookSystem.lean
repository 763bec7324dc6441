import Hakkun.Machine.Core.Patches
import Hakkun.Model.Hook.Hooks
import Hakkun.Soundness.EmittedCode
import Hakkun.Soundness.FailedInstall

/-! # Hooks next to each other

A hook writes as many words as its branch needs, but saves and writes back as many as the longest
branch has. What is behind its own words is written back too, so an uninstall takes the hook with it
that was installed there in the meantime, or brings one back that is gone. Where the words behind
its own ones are still those that it saved, an uninstall is exact, and hooks compose in any order.
-/

namespace Hakkun.Hook

open Ro Machine

/-! ## The words of a hook -/

/-- The additions keep the length of the buffer. -/
theorem VecSpan.addAll_length {out next : VecSpan} {words : List Instr}
    (added : out.addAll words = some next) : next.mData.length = out.mData.length := by
  induction words generalizing out with
  | nil =>
    cases added
    rfl
  | cons word words ih =>
    obtain ⟨first, one, rest⟩ := Option.bind_eq_some_iff.mp added
    rw [VecSpan.add] at one
    split at one
    · cases one
      exact (ih rest).trans (List.length_set ..)
    · cases one

/-- A hook writes at most `N` words. -/
theorem length_hookInstrs {N : ℕ} {hookAt target : Ptr} {instrs : List Instr}
    (emitted : hookInstrs N hookAt target = some instrs) : instrs.length ≤ N := by
  obtain ⟨⟨count, out⟩, branch, rfl⟩ := Option.map_eq_some_iff.mp emitted
  rw [emitBranch_eq] at branch
  obtain ⟨next, added, same⟩ := Option.map_eq_some_iff.mp branch
  cases same
  have length := VecSpan.addAll_length added
  rw [List.length_replicate] at length
  exact (List.length_take_le' ..).trans length.le

section

variable (N : ℕ) (kind : Kind) (site : Site)

/-- The words that a hook writes at a site. -/
def words : List Instr := (hookInstrs N site.getAt kind.target).getD []

/-- The bytes that these words take. -/
def size : ℕ := (words N kind site).length * cInstrSize

/-- The words of a hook in the aliases. -/
def patch : Patch Ptr Byte where
  cells := {a | (a - site.module.rwPtr site.offset).toNat < size N kind site}
  value a := instrByte (words N kind site) (a - site.module.rwPtr site.offset).toNat

end

variable {N : ℕ} {kind : Kind} {site : Site}

theorem mem_cells {a : Ptr} : a ∈ (patch N kind site).cells ↔
    (a - site.module.rwPtr site.offset).toNat < size N kind site := Iff.rfl

theorem words_eq {instrs : List Instr}
    (emitted : hookInstrs N site.getAt kind.target = some instrs) :
    words N kind site = instrs := by
  rw [words, emitted, Option.getD_some]

theorem size_le : size N kind site ≤ N * cInstrSize := by
  apply Nat.mul_le_mul_right
  rw [words]
  cases emitted : hookInstrs N site.getAt kind.target with
  | none => exact Nat.zero_le N
  | some instrs => exact length_hookInstrs emitted

/-- An address is the start of a site and its distance to it. -/
theorem eq_rwPtr_add (site : Site) (a : Ptr) :
    a = site.module.rwPtr site.offset +
      BitVec.ofNat 64 (a - site.module.rwPtr site.offset).toNat := by
  rw [BitVec.ofNat_toNat, BitVec.setWidth_eq, BitVec.add_comm, BitVec.sub_add_cancel]

/-! ## One call -/

theorem writeInstrs_ok {module : RoModule} {offset : U64} {memory after : Memory}
    {instrs : List Instr} (wrote : writeInstrs module memory offset instrs = (.ok (), after)) :
    after = memcpy memory (module.rwPtr offset) (instrByte instrs)
      (BitVec.ofNat 64 (instrs.length * cInstrSize)) := by
  rw [writeInstrs, RoModule.writeRo] at wrote
  split_ifs at wrote <;> cases wrote
  rfl

/-- A successful install of the base. -/
theorem HookNInstr.installAtOffset_ok {hook next : HookNInstr} {memory after : Memory}
    {request : Request}
    (installed : hook.installAtOffset N memory request = (.ok (), next, after)) :
    next = ⟨some request.module, request.offset,
        readInstrs request.module memory request.offset N⟩ ∧
      after = memcpy memory (request.module.rwPtr request.offset) (instrByte request.instrs)
        (BitVec.ofNat 64 (request.instrs.length * cInstrSize)) := by
  rw [installAtOffset] at installed
  split at installed
  · cases installed
  split at installed
  · cases installed
  next wrote =>
    cases installed
    exact ⟨rfl, writeInstrs_ok wrote⟩

/-- A successful uninstall writes all saved words. -/
theorem HookNInstr.uninstall_ok {hook next : HookNInstr} {memory after : Memory}
    (uninstalled : hook.uninstall N memory = (.ok (), next, after)) :
    hook.isInstalled = true ∧ next = cleared N ∧
      ∃ module, hook.mModule = some module ∧
        after = memcpy memory (module.rwPtr hook.mOffset) (instrByte hook.mOrigInstrs)
          (BitVec.ofNat 64 (hook.mOrigInstrs.length * cInstrSize)) := by
  rw [uninstall] at uninstalled
  split at uninstalled
  · cases uninstalled
  next absent =>
    split at uninstalled
    · cases uninstalled
    next module known =>
      split at uninstalled
      · cases uninstalled
      next wrote =>
        cases uninstalled
        rw [Bool.not_eq_true, Bool.not_eq_false'] at absent
        exact ⟨absent, rfl, module, known, writeInstrs_ok wrote⟩

/-- Replacements and trampolines install their words alike. -/
theorem Kind.installAtOffset_ok {before after : Trampoline.Left}
    (installed : kind.installAtOffset N before site.module site.offset = some (.ok (), after)) :
    hookInstrs N site.getAt kind.target = some (words N kind site) ∧
      after.hook = ⟨some site.module, site.offset,
        readInstrs site.module before.memory site.offset N⟩ ∧
      after.memory = memcpy before.memory (site.module.rwPtr site.offset)
        (instrByte (words N kind site)) (BitVec.ofNat 64 (size N kind site)) := by
  cases kind with
  | replace mFunc =>
    obtain ⟨⟨result, hook, memory⟩, called, same⟩ := Option.map_eq_some_iff.mp installed
    cases same
    rw [Replace.installAtOffset] at called
    split at called
    · cases called
    obtain ⟨instrs, emitted, base⟩ := Option.map_eq_some_iff.mp called
    obtain ⟨knows, wrote⟩ := HookNInstr.installAtOffset_ok base
    have own : words N (.replace mFunc) site = instrs := words_eq emitted
    rw [size, own]
    exact ⟨emitted, knows, wrote⟩
  | trampoline target =>
    obtain ⟨instrs, emitted, rest⟩ := Option.bind_eq_some_iff.mp installed
    obtain ⟨backup, -, base⟩ := Option.map_eq_some_iff.mp rest
    have own : words N (.trampoline target) site = instrs := words_eq emitted
    cases called : before.hook.installAtOffset N before.memory
        ⟨site.module, site.offset, instrs⟩ with
    | mk result left =>
      rw [called] at base
      cases base
      obtain ⟨knows, wrote⟩ := HookNInstr.installAtOffset_ok called
      rw [size, own]
      exact ⟨emitted, knows, wrote⟩

/-! ## What a call leaves in memory -/

/-- An install puts the words of the hook in their place. -/
theorem puts_words (memory : Memory) (mapped : site.module.Mapped)
    (within : Within site.module site.offset (size N kind site)) :
    (patch N kind site).Puts memory (memcpy memory (site.module.rwPtr site.offset)
      (instrByte (words N kind site)) (BitVec.ofNat 64 (size N kind site))) := by
  have bytes : (BitVec.ofNat 64 (size N kind site)).toNat = size N kind site := by
    rw [BitVec.toNat_ofNat, Nat.mod_eq_of_lt (within.lt mapped).2]
  constructor
  · intro a inside
    rw [RoModule.memcpy_at, bytes, if_pos (mem_cells.mp inside)]
    rfl
  · intro a outside
    rw [RoModule.memcpy_at, bytes, if_neg (mem_cells.not.mp outside)]

/-- What is known of a hook that is installed: it saved what it found, which is the original in the
place of its words. -/
structure Knows (N : ℕ) (kind : Kind) (original : Memory) (site : Site) (hook : HookNInstr)
    (found : Memory) : Prop where
  hook : hook = ⟨some site.module, site.offset, readInstrs site.module found site.offset N⟩
  emitted : hookInstrs N site.getAt kind.target = some (words N kind site)
  mapped : site.module.Mapped
  within : Within site.module site.offset (size N kind site)
  found : ∀ a ∈ (patch N kind site).cells, found a = original a

/-- The words that are saved behind those of the hook are in memory. -/
def TailIntact (N : ℕ) (kind : Kind) (site : Site) (hook : HookNInstr) (memory : Memory) : Prop :=
  ∀ k, size N kind site ≤ k → k < N * cInstrSize →
    memory (site.module.rwPtr site.offset + BitVec.ofNat 64 k) = instrByte hook.mOrigInstrs k

variable {original found memory : Memory} {hook : HookNInstr}

/-- Within the words of the hook the saved bytes are those that were found. -/
theorem Knows.saved (knows : Knows N kind original site hook found) {k : ℕ}
    (inside : k < size N kind site) :
    instrByte hook.mOrigInstrs k = found (site.module.rwPtr site.offset + BitVec.ofNat 64 k) := by
  rw [knows.hook, instrByte_readInstrs _ _ _ (inside.trans_le size_le),
    roByte_of_within knows.mapped knows.within inside]

/-- The words that an uninstall writes restore those of the hook, and change no others precisely
where the saved tail is intact. -/
theorem Knows.puts_saved_iff (knows : Knows N kind original site hook found)
    (sized : N * cInstrSize < 2 ^ 64) :
    Patch.Puts ⟨(patch N kind site).cells, found⟩ memory
        (memcpy memory (site.module.rwPtr site.offset) (instrByte hook.mOrigInstrs)
          (BitVec.ofNat 64 (N * cInstrSize))) ↔
      TailIntact N kind site hook memory := by
  have bytes : (BitVec.ofNat 64 (N * cInstrSize)).toNat = N * cInstrSize := by
    rw [BitVec.toNat_ofNat, Nat.mod_eq_of_lt sized]
  constructor
  · intro puts k tail inside
    have distance : (site.module.rwPtr site.offset + BitVec.ofNat 64 k -
        site.module.rwPtr site.offset).toNat = k :=
      (RoModule.sub_toNat_eq (by omega)).mpr rfl
    have outside : site.module.rwPtr site.offset + BitVec.ofNat 64 k ∉
        (patch N kind site).cells := by
      rw [mem_cells, distance]
      omega
    have kept := puts.outside _ outside
    rw [RoModule.memcpy_at, bytes, distance, if_pos inside] at kept
    exact kept.symm
  · intro intact
    constructor
    · intro a inside
      have near := mem_cells.mp inside
      rw [RoModule.memcpy_at, bytes, if_pos (near.trans_le size_le), knows.saved near,
        ← eq_rwPtr_add]
    · intro a outside
      have far := mem_cells.not.mp outside
      rw [RoModule.memcpy_at, bytes]
      split
      next inside =>
        rw [← intact _ (Nat.le_of_not_lt far) inside, ← eq_rwPtr_add]
      next => rfl

/-! ## Runs -/

namespace Hooks

variable {ι : Type} [DecidableEq ι]

section

variable (N : ℕ) (kinds : ι → Kind)

/-- An install writes none of the words of the other hooks. -/
def Apart (state : Hooks ι) : Event ι → Prop
  | .install i site => ∀ j other, j ≠ i → state.sites j = some other →
      Disjoint (patch N (kinds i) site).cells (patch N (kinds j) other).cells
  | .uninstall _ => True

/-- A hook that is installed is nowhere yet and stays within a section; where one is uninstalled the
tail that it saved is intact. -/
def Intact (state : Hooks ι) : Event ι → Prop
  | .install i site => state.sites i = none ∧ site.module.Mapped ∧
      Within site.module site.offset (size N (kinds i) site)
  | .uninstall i => ∀ site, state.sites i = some site →
      TailIntact N (kinds i) site (state.hooks i) state.memory

/-- An uninstall restores the words that the install of the hook overwrote, and no others. -/
def Restores (state : Hooks ι) : Event ι → Prop
  | .install .. => True
  | .uninstall i => ∀ next, step N kinds state (.uninstall i) = some next →
      ∃ site, state.sites i = some site ∧
        Patch.Puts ⟨(patch N (kinds i) site).cells, state.found i⟩ state.memory next.memory

/-- The hooks that are installed have their own words in memory, which is the original when there
are none. -/
structure Composes (original : Memory) (state : Hooks ι) : Prop where
  own : ∀ i site, state.sites i = some site →
    ∃ instrs, hookInstrs N site.getAt (kinds i).target = some instrs ∧
      readInstrs site.module state.memory site.offset instrs.length = instrs
  restored : (∀ i, state.sites i = none) → state.memory = original

/-- The invariant of runs. -/
structure Kept (original : Memory) (state : Hooks ι) : Prop where
  patched : Patched original (fun i => (state.sites i).map (patch N (kinds i))) state.memory
  absent : ∀ i, state.sites i = none → state.hooks i = HookNInstr.cleared N
  knows : ∀ i site, state.sites i = some site →
    Knows N (kinds i) original site (state.hooks i) (state.found i)

end

variable {kinds : ι → Kind} {state next : Hooks ι} {i : ι}

theorem patches_update (kinds : ι → Kind) (sites : ι → Option Site) (i : ι) (value : Option Site) :
    (fun j => (Function.update sites i value j).map (patch N (kinds j))) =
      Function.update (fun j => (sites j).map (patch N (kinds j))) i
        (value.map (patch N (kinds i))) := by
  funext j
  rcases eq_or_ne j i with rfl | different
  · rw [Function.update_self, Function.update_self]
  · rw [Function.update_of_ne different, Function.update_of_ne different]

omit [DecidableEq ι] in
theorem kept_start (backups : ι → TrampolineBackup) (original : Memory) :
    Kept N kinds original (start N backups original) where
  patched := Patched.bare fun _ => rfl
  absent _ _ := rfl
  knows _ _ found := by cases found

omit [DecidableEq ι] in
theorem Kept.composes (kept : Kept N kinds original state) : Composes N kinds original state where
  own i site present := by
    have knows := kept.knows i site present
    refine ⟨words N (kinds i) site, knows.emitted, readInstrs_of_bytes fun k inside => ?_⟩
    have distance : (site.module.rwPtr site.offset + BitVec.ofNat 64 k -
        site.module.rwPtr site.offset).toNat = k :=
      (RoModule.sub_toNat_eq (inside.trans (knows.within.lt knows.mapped).2)).mpr rfl
    have cell : site.module.rwPtr site.offset + BitVec.ofNat 64 k ∈
        (patch N (kinds i) site).cells := by
      rw [mem_cells, distance]
      exact inside
    have there := kept.patched.inside i (patch N (kinds i) site)
      (congrArg (Option.map (patch N (kinds i))) present) _ cell
    rw [roByte_of_within knows.mapped knows.within inside, there]
    exact congrArg (instrByte (words N (kinds i) site)) distance
  restored none := kept.patched.eq_base fun i => by rw [none i, Option.map_none]

/-- An install keeps the invariant. -/
theorem Kept.install {site : Site} (kept : Kept N kinds original state)
    (apart : Apart N kinds state (.install i site))
    (intact : Intact N kinds state (.install i site))
    (stepped : step N kinds state (.install i site) = some next) :
    Kept N kinds original next := by
  obtain ⟨absent, mapped, within⟩ := intact
  rw [step] at stepped
  split at stepped
  on_goal 2 => cases stepped
  next after called =>
    cases stepped
    obtain ⟨emitted, hook, wrote⟩ := Kind.installAtOffset_ok called
    have free (j : ι) (other : Patch Ptr Byte) (different : j ≠ i)
        (found : (state.sites j).map (patch N (kinds j)) = some other) :
        Disjoint (patch N (kinds i) site).cells other.cells := by
      obtain ⟨there, present, rfl⟩ := Option.map_eq_some_iff.mp found
      exact apart j there different present
    have none : (state.sites i).map (patch N (kinds i)) = none := by rw [absent, Option.map_none]
    constructor <;> dsimp only
    · rw [patches_update, Option.map_some, wrote]
      exact kept.patched.put none free (puts_words state.memory mapped within)
    · intro j missing
      rcases eq_or_ne j i with rfl | different
      · rw [Function.update_self] at missing
        cases missing
      · rw [Function.update_of_ne different] at missing ⊢
        exact kept.absent j missing
    · intro j there present
      rcases eq_or_ne j i with rfl | different
      · rw [Function.update_self] at present
        cases present
        rw [Function.update_self, Function.update_self]
        exact ⟨hook, emitted, mapped, within,
          fun a inside => kept.patched.eq_of_free none free inside⟩
      · rw [Function.update_of_ne different] at present ⊢
        rw [Function.update_of_ne different]
        exact kept.knows j there present

/-- An uninstall with an intact tail is exact and keeps the invariant. -/
theorem Kept.uninstall (sized : N * cInstrSize < 2 ^ 64) (kept : Kept N kinds original state)
    (intact : Intact N kinds state (.uninstall i))
    (stepped : step N kinds state (.uninstall i) = some next) :
    (∃ site, state.sites i = some site ∧
      Patch.Puts ⟨(patch N (kinds i) site).cells, state.found i⟩ state.memory next.memory) ∧
    Kept N kinds original next := by
  rw [step] at stepped
  split at stepped
  on_goal 2 => cases stepped
  next cleared after called =>
    cases stepped
    obtain ⟨installed, rfl, module, known, wrote⟩ := HookNInstr.uninstall_ok called
    cases present : state.sites i with
    | none =>
      rw [kept.absent i present, HookNInstr.isInstalled_cleared] at installed
      cases installed
    | some site =>
      have knows := kept.knows i site present
      have saved : (state.hooks i).mOrigInstrs.length = N := by
        rw [knows.hook, length_readInstrs]
      have offset : (state.hooks i).mOffset = site.offset := by rw [knows.hook]
      have same : module = site.module := by
        rw [knows.hook] at known
        exact (Option.some.inj known).symm
      rw [saved, offset, same] at wrote
      have puts := (knows.puts_saved_iff sized).mpr (intact site present)
      rw [← wrote] at puts
      refine ⟨⟨site, rfl, puts⟩, ?_⟩
      constructor <;> dsimp only
      · rw [patches_update, Option.map_none]
        have here : (state.sites i).map (patch N (kinds i)) = some (patch N (kinds i) site) := by
          rw [present, Option.map_some]
        apply kept.patched.takeOff here
        exact ⟨fun a inside => (puts.inside a inside).trans (knows.found a inside), puts.outside⟩
      · intro j missing
        rcases eq_or_ne j i with rfl | different
        · exact Function.update_self ..
        · rw [Function.update_of_ne different] at missing ⊢
          exact kept.absent j missing
      · intro j there found
        rcases eq_or_ne j i with rfl | different
        · rw [Function.update_self] at found
          cases found
        · rw [Function.update_of_ne different] at found ⊢
          exact kept.knows j there found

/-- In every run of successful calls whose installs write different words and whose uninstalls find
the saved tail intact, hooks have their own words until they are uninstalled, uninstalls are exact
and without hooks the memory is the original. -/
theorem composes_of_intact (kinds : ι → Kind) (backups : ι → TrampolineBackup) (original : Memory)
    (sized : N * cInstrSize < 2 ^ 64) {events : List (Event ι)}
    (meets : RunMeets (step N kinds)
      (fun state event => Apart N kinds state event ∧ Intact N kinds state event)
      (start N backups original) events) :
    RunMeets (step N kinds) (Restores N kinds) (start N backups original) events ∧
      ∀ state, run (step N kinds) (start N backups original) events = some state →
        Composes N kinds original state := by
  have preserved (source : Hooks ι) (event : Event ι) (kept : Kept N kinds original source)
      (met : Apart N kinds source event ∧ Intact N kinds source event) :
      Restores N kinds source event ∧
        ∀ target, step N kinds source event = some target → Kept N kinds original target := by
    cases event with
    | install i site => exact ⟨trivial, fun target => kept.install met.1 met.2⟩
    | uninstall i =>
      exact ⟨fun target stepped => (kept.uninstall sized met.2 stepped).1,
        fun target stepped => (kept.uninstall sized met.2 stepped).2⟩
  have fresh : Kept N kinds original (start N backups original) := kept_start backups original
  constructor
  · exact runMeets_mono (Kept N kinds original) preserved fresh meets
  · intro state ran
    apply Kept.composes
    apply run_invariant _ fresh meets ran
    intro source event target kept met stepped
    exact (preserved source event kept met).2 target stepped

/-- Two neighbouring words. -/
def neighbour (second : Bool) : Site := ⟨RoModule.twoPages, if second then 4 else 0⟩

/-- Two replacements of one word each. -/
def replacements (_ : Bool) : Kind := .replace 0x5000

/-- Two constructed hooks, and calls that leave the second one installed. -/
def bothCleared (N : ℕ) : Hooks Bool := start N (fun _ => ⟨[], 0⟩) fun _ => 1

def leaveSecond : List (Event Bool) :=
  [.install false (neighbour false), .install true (neighbour true), .uninstall false]

theorem step_sites {i : ι} {site : Site}
    (stepped : step N kinds state (.install i site) = some next) :
    next.sites = Function.update state.sites i (some site) := by
  rw [step] at stepped
  split at stepped <;> cases stepped
  rfl

/-- A hook that needs all of its words saves no others. -/
theorem tailIntact_of_full (full : size N kind site = N * cInstrSize) :
    TailIntact N kind site hook memory := by
  intro k tail inside
  omega

theorem size_neighbour (which : Bool) :
    size 1 (replacements which) (neighbour which) = 4 ∧
      size 2 (replacements which) (neighbour which) = 4 := by
  cases which <;> decide

theorem disjoint_neighbours (one : ∀ which, size N (replacements which) (neighbour which) = 4)
    {first second : Bool} (different : second ≠ first) :
    Disjoint (patch N (replacements first) (neighbour first)).cells
      (patch N (replacements second) (neighbour second)).cells := by
  have place (which : Bool) :
      RoModule.twoPages.rwPtr (neighbour which).offset = if which then 0x10004 else 0x10000 := by
    cases which <;> decide
  apply Set.disjoint_left.mpr
  intro a here there
  rw [mem_cells, one] at here there
  change (a - RoModule.twoPages.rwPtr _).toNat < 4 at here there
  rw [place, BitVec.toNat_sub] at here there
  cases first <;> cases second <;> simp at different here there <;> omega

/-- The two installs, one after the other, are apart. -/
theorem apart_neighbours (one : ∀ which, size N (replacements which) (neighbour which) = 4) :
    Apart N replacements (bothCleared N) (.install false (neighbour false)) ∧
      ∀ target, step N replacements (bothCleared N) (.install false (neighbour false)) =
          some target →
        Apart N replacements target (.install true (neighbour true)) := by
  constructor
  · rintro j other different ⟨⟩
  · intro target stepped j other different present
    rw [step_sites stepped] at present
    cases j with
    | true => exact absurd rfl different
    | false =>
      obtain rfl : neighbour false = other := Option.some.inj present
      exact disjoint_neighbours one different

theorem composes_neighbours :
    RunMeets (step 1 replacements) (Restores 1 replacements) (bothCleared 1) leaveSecond ∧
      ∃ state, run (step 1 replacements) (bothCleared 1) leaveSecond = some state ∧
        Composes 1 replacements (fun _ => 1) state := by
  have one (which : Bool) := (size_neighbour which).1
  have apart := apart_neighbours one
  have meets : RunMeets (step 1 replacements)
      (fun state event => Apart 1 replacements state event ∧ Intact 1 replacements state event)
      (bothCleared 1) leaveSecond := by
    refine ⟨⟨apart.1, rfl, RoModule.mapped_twoPages, by decide⟩, fun first stepped =>
      ⟨⟨apart.2 first stepped, ?_, RoModule.mapped_twoPages, by decide⟩, fun second again =>
        ⟨⟨trivial, fun site present => ?_⟩, fun _ _ => trivial⟩⟩⟩
    · rw [step_sites stepped]
      rfl
    · rw [step_sites again, step_sites stepped] at present
      obtain rfl : neighbour false = site := Option.some.inj present
      exact tailIntact_of_full (one false)
  have holds := composes_of_intact replacements (fun _ => ⟨[], 0⟩) (fun _ => 1) (by decide) meets
  exact ⟨holds.1, _, rfl, holds.2 _ rfl⟩

/-- The second hook is installed behind the first one, and its word is gone when the first one is
uninstalled. -/
theorem not_composes :
    RunMeets (step 2 replacements) (Apart 2 replacements) (bothCleared 2) leaveSecond ∧
      ∃ state, run (step 2 replacements) (bothCleared 2) leaveSecond = some state ∧
        ¬ Composes 2 replacements (fun _ => 1) state := by
  have apart := apart_neighbours fun which => (size_neighbour which).2
  constructor
  · exact ⟨apart.1, fun first stepped =>
      ⟨apart.2 first stepped, fun _ _ => ⟨trivial, fun _ _ => trivial⟩⟩⟩
  refine ⟨_, rfl, fun composes => ?_⟩
  obtain ⟨instrs, emitted, read⟩ := composes.own true (neighbour true) rfl
  have own : hookInstrs 2 (neighbour true).getAt 0x5000 = some [0x14000fff] := by decide
  obtain rfl := Option.some.inj (own.symm.trans emitted)
  exact absurd read (by decide)

end Hooks

end Hakkun.Hook
