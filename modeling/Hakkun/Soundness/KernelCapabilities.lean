import Hakkun.Machine.Core.Yields
import Hakkun.Soundness.KernelDescriptors
import Mathlib.Data.List.Forall2

/-! # Kernel capabilities from JSON

A list of capabilities is written exactly when none of its entries is refused: a page always is, an
interrupt only where no syscall comes before it, and any other entry where a value is outside its
field. What is written is read back as the same capabilities, except for interrupts, which are taken
from the syscalls before them and put a bit too low.
-/

namespace Hakkun.Tools.BuildNpdm

open Elf2Nro (Byte packWord)
open Machine.Core

section Documented

/-- The values of a capability, within their fields or not. An interrupt may be left out. -/
inductive Capability where
  | kernelFlags (highest_thread_priority lowest_thread_priority lowest_cpu_id highest_cpu_id : ℤ)
  | syscalls (numbers : List ℤ)
  | map (address : ℤ) (is_ro : Bool) (size : ℤ) (is_io : Bool)
  | mapPage (page : ℤ)
  | mapRegion (regions : List (ℤ × Bool))
  | irqPair (one two : Option ℤ)
  | applicationType (value : ℤ)
  | minKernelVersion (value : ℤ)
  | handleTableSize (value : ℤ)
  | debugFlags (allow_debug force_debug force_debug_prod : Bool)

def Within (value bound : ℤ) : Prop := 0 ≤ value ∧ value ≤ bound

instance (value bound : ℤ) : Decidable (Within value bound) :=
  inferInstanceAs (Decidable (_ ∧ _))

/-- The values are in the ranges of their fields. -/
def Capability.InRange : Capability → Prop
  | kernelFlags highest lowest low high =>
    Within highest 63 ∧ Within lowest 63 ∧ Within low 255 ∧ Within high 255
  | syscalls numbers => ∀ number ∈ numbers, Within number 0xbf
  | map address _ size _ => Within address (2 ^ 24 - 1) ∧ Within size (2 ^ 20 - 1)
  | mapPage page => Within page (2 ^ 24 - 1)
  | mapRegion regions => regions.length ≤ 3 ∧ ∀ region ∈ regions, Within region.1 3
  | irqPair one two => (∀ irq ∈ one, Within irq 0x3ff) ∧ ∀ irq ∈ two, Within irq 0x3ff
  | applicationType value => Within value 2
  | minKernelVersion value => Within value (2 ^ 16 - 1)
  | handleTableSize value => Within value (2 ^ 10 - 1)
  | debugFlags allow_debug force_debug force_debug_prod =>
    allow_debug.toNat + force_debug.toNat + force_debug_prod.toNat ≤ 1

/-- No interrupt is the largest number. -/
def irqNumber (irq : Option ℤ) : ℕ := (irq.map Int.toNat).getD 0x3ff

/-- What descriptors are to say. -/
def Capability.items : Capability → List Item
  | kernelFlags highest lowest low high =>
    [.kernelFlags highest.toNat lowest.toNat low.toNat high.toNat]
  | syscalls numbers => syscallItems (numbers.map Int.toNat)
  | map address is_ro size is_io => [.map address.toNat is_ro size.toNat is_io]
  | mapPage page => [.mapPage page.toNat]
  | mapRegion regions =>
    [.mapRegion (padRegions (regions.map fun (region_type, is_ro) => (region_type.toNat, is_ro)))]
  | irqPair one two => [.irqPair (irqNumber one) (irqNumber two)]
  | applicationType value => [.applicationType value.toNat]
  | minKernelVersion value => [.minKernelVersion value.toNat]
  | handleTableSize value => [.handleTableSize value.toNat]
  | debugFlags allow_debug force_debug force_debug_prod =>
    [.debugFlags allow_debug force_debug_prod force_debug]

variable (int16 : String → Option ℤ)

/-- An integer, or the text of one. -/
def IntAs (json : Json) (value : ℤ) : Prop :=
  json = .int value ∨ ∃ text, json = .str text ∧ int16 text = some value

def HasInt (items : List (String × Json)) (key : String) (value : ℤ) : Prop :=
  ∃ json, items.lookup key = some json ∧ IntAs int16 json value

def HasBool (items : List (String × Json)) (key : String) (value : Bool) : Prop :=
  items.lookup key = some (.bool value)

/-- A flag that may be left out. -/
def HasFlag (items : List (String × Json)) (key : String) (value : Bool) : Prop :=
  HasBool items key value ∨ items.lookup key = none ∧ value = false

inductive RegionAs : Json → ℤ × Bool → Prop
  | dict {items : List (String × Json)} {region_type : ℤ} {is_ro : Bool}
    (type_ : HasInt int16 items "region_type" region_type) (ro : HasBool items "is_ro" is_ro) :
    RegionAs (.dict items) (region_type, is_ro)

inductive IrqAs : Json → Option ℤ → Prop
  | null : IrqAs .null none
  | number {json : Json} {irq : ℤ} (number : IntAs int16 json irq) : IrqAs json (some irq)

/-- A dictionary with a capability of one of the types. -/
inductive Documented : List (String × Json) → Capability → Prop
  | kernel_flags {cap value : List (String × Json)} {highest lowest low high : ℤ}
    (type_ : cap.lookup "type" = some (.str "kernel_flags"))
    (dict : cap.lookup "value" = some (.dict value))
    (highest_thread_priority : HasInt int16 value "highest_thread_priority" highest)
    (lowest_thread_priority : HasInt int16 value "lowest_thread_priority" lowest)
    (lowest_cpu_id : HasInt int16 value "lowest_cpu_id" low)
    (highest_cpu_id : HasInt int16 value "highest_cpu_id" high) :
    Documented cap (.kernelFlags highest lowest low high)
  | syscalls {cap value : List (String × Json)} {numbers : List ℤ}
    (type_ : cap.lookup "type" = some (.str "syscalls"))
    (dict : cap.lookup "value" = some (.dict value))
    (listed : List.Forall₂ (fun item number => IntAs int16 item.2 number) value numbers) :
    Documented cap (.syscalls numbers)
  | map {cap value : List (String × Json)} {address size : ℤ} {is_ro is_io : Bool}
    (type_ : cap.lookup "type" = some (.str "map"))
    (dict : cap.lookup "value" = some (.dict value))
    (address_ : HasInt int16 value "address" address) (ro : HasBool value "is_ro" is_ro)
    (size_ : HasInt int16 value "size" size) (io : HasBool value "is_io" is_io) :
    Documented cap (.map address is_ro size is_io)
  | map_page {cap : List (String × Json)} {page : ℤ}
    (type_ : cap.lookup "type" = some (.str "map_page"))
    (value : HasInt int16 cap "value" page) : Documented cap (.mapPage page)
  | map_region {cap : List (String × Json)} {value : List Json} {regions : List (ℤ × Bool)}
    (type_ : cap.lookup "type" = some (.str "map_region"))
    (list : cap.lookup "value" = some (.list value))
    (listed : List.Forall₂ (RegionAs int16) value regions) : Documented cap (.mapRegion regions)
  | irq_pair {cap : List (String × Json)} {first second : Json} {one two : Option ℤ}
    (type_ : cap.lookup "type" = some (.str "irq_pair"))
    (list : cap.lookup "value" = some (.list [first, second]))
    (one_ : IrqAs int16 first one) (two_ : IrqAs int16 second two) :
    Documented cap (.irqPair one two)
  | application_type {cap : List (String × Json)} {type : ℤ}
    (type_ : cap.lookup "type" = some (.str "application_type"))
    (value : HasInt int16 cap "value" type ∨ cap.lookup "value" = none ∧ type = 0) :
    Documented cap (.applicationType type)
  | min_kernel_version {cap : List (String × Json)} {version : ℤ}
    (type_ : cap.lookup "type" = some (.str "min_kernel_version"))
    (value : HasInt int16 cap "value" version) : Documented cap (.minKernelVersion version)
  | handle_table_size {cap : List (String × Json)} {size : ℤ}
    (type_ : cap.lookup "type" = some (.str "handle_table_size"))
    (value : HasInt int16 cap "value" size) : Documented cap (.handleTableSize size)
  | debug_flags {cap value : List (String × Json)} {allow force prod : Bool}
    (type_ : cap.lookup "type" = some (.str "debug_flags"))
    (dict : cap.lookup "value" = some (.dict value))
    (allow_debug : HasFlag value "allow_debug" allow)
    (force_debug : HasFlag value "force_debug" force)
    (force_debug_prod : HasFlag value "force_debug_prod" prod) :
    Documented cap (.debugFlags allow force prod)

end Documented

section Readers

variable {int16 : String → Option ℤ} {items : List (String × Json)} {key : String}

theorem readInt_eq {json : Json} {value : ℤ} (as : IntAs int16 json value) :
    readInt int16 json = .ok value := by
  rcases as with rfl | ⟨text, rfl, parsed⟩
  · rfl
  · rw [readInt, parsed]

theorem json_read_value_eq {json : Json} (found : items.lookup key = some json)
    (default : Option Json) : json_read_value (.dict items) key default = .ok json := by
  simp only [json_read_value, found]

theorem json_read_value_default {json : Json} (missing : items.lookup key = none) :
    json_read_value (.dict items) key (some json) = .ok json := by
  simp only [json_read_value, missing]

theorem json_read_dict_eq {value : List (String × Json)}
    (found : items.lookup key = some (.dict value)) :
    json_read_dict (.dict items) key = .ok value := by
  rw [json_read_dict, json_read_value_eq found]
  rfl

theorem json_read_list_eq {value : List Json} (found : items.lookup key = some (.list value)) :
    json_read_list (.dict items) key = .ok value := by
  rw [json_read_list, json_read_value_eq found]
  rfl

theorem json_read_str_eq {value : String} (found : items.lookup key = some (.str value)) :
    json_read_str (.dict items) key = .ok value := by
  rw [json_read_str, json_read_value_eq found]
  rfl

theorem json_read_bool_eq {value : Bool} (found : HasBool items key value)
    (default : Option Bool) : json_read_bool (.dict items) key default = .ok value := by
  rw [json_read_bool, json_read_value_eq found]
  rfl

theorem json_read_flag_eq {value : Bool} (found : HasFlag items key value) :
    json_read_bool (.dict items) key (some false) = .ok value := by
  rcases found with found | ⟨missing, rfl⟩
  · exact json_read_bool_eq found _
  · rw [json_read_bool, Option.map_some, json_read_value_default missing]
    rfl

theorem json_read_int_eq {json : Json} {value : ℤ} (max_val : ℤ) {default : Option ℤ}
    (read : json_read_value (.dict items) key (default.map .int) = .ok json)
    (as : IntAs int16 json value) : json_read_int int16 (.dict items) key 0 max_val default =
      if 0 ≤ value ∧ value ≤ max_val then .ok value.toNat else .error (.between key 0 max_val) := by
  rw [json_read_int, read]
  show (readInt int16 json >>= _) = _
  rw [readInt_eq as]
  rfl

/-- An integer is read where it is within its bound. -/
theorem json_read_int_yields {value : ℤ} (found : HasInt int16 items key value) (max_val : ℤ)
    (default : Option ℤ) : Yields (json_read_int int16 (.dict items) key 0 max_val default)
      (Within value max_val) (· = value.toNat) := by
  obtain ⟨json, place, as⟩ := found
  rw [json_read_int_eq max_val (json_read_value_eq place _) as]
  exact .ite fun _ => rfl

theorem toNat_lt {value bound : ℤ} (within : Within value bound) {n : ℕ} (below : bound < n) :
    value.toNat < n := by
  obtain ⟨nonneg, small⟩ := within
  omega

end Readers

section Capabilities

variable {int16 : String → Option ℤ} {cap value : List (String × Json)} {locals : Option Locals}

/-- One word that says something. -/
def Says (items : List Item) (word : ℕ) : Prop := Decodes [word] items

theorem kernel_flags_yields {highest lowest low high : ℤ}
    (dict : cap.lookup "value" = some (.dict value))
    (one : HasInt int16 value "highest_thread_priority" highest)
    (two : HasInt int16 value "lowest_thread_priority" lowest)
    (three : HasInt int16 value "lowest_cpu_id" low)
    (four : HasInt int16 value "highest_cpu_id" high) :
    Yields (kernel_flags int16 (.dict cap)) (Capability.kernelFlags highest lowest low high).InRange
      (Says (Capability.kernelFlags highest lowest low high).items) := by
  refine .of_ok (json_read_dict_eq dict) ?_
  refine (json_read_int_yields one 63 none).bind fun _ a given => ?_
  refine (json_read_int_yields two 63 none).bind fun _ b given => ?_
  refine (json_read_int_yields three 255 none).bind fun _ c given => ?_
  refine (json_read_int_yields four 255 none).map fun _ d given => ?_
  subst_vars
  exact decodes_kernel_flags (toNat_lt a (by decide)) (toNat_lt b (by decide))
    (toNat_lt c (by decide)) (toNat_lt d (by decide))

theorem map_yields {address size : ℤ} {is_ro is_io : Bool}
    (dict : cap.lookup "value" = some (.dict value)) (one : HasInt int16 value "address" address)
    (ro : HasBool value "is_ro" is_ro) (two : HasInt int16 value "size" size)
    (io : HasBool value "is_io" is_io) :
    Yields (map int16 (.dict cap)) (Capability.map address is_ro size is_io).InRange
      (Decodes · (Capability.map address is_ro size is_io).items) := by
  refine .of_ok (json_read_dict_eq dict) ?_
  refine (json_read_int_yields one (2 ^ 24 - 1) none).bind fun _ a given => ?_
  refine .of_ok (json_read_bool_eq ro none) ?_
  have second : json_read_bool (.dict value) "is_io" none = .ok is_io := json_read_bool_eq io none
  simp only [second]
  refine (json_read_int_yields two (2 ^ 20 - 1) none).map fun _ b given => ?_
  subst_vars
  exact decodes_map (toNat_lt a (by decide)) (toNat_lt b (by decide))

theorem map_page_eq : map_page int16 = .error .typeError := rfl

/-- The regions from some one on. -/
theorem regionLoop_yields {list : List Json} {regions : List (ℤ × Bool)}
    (listed : List.Forall₂ (RegionAs int16) list regions) (i word : ℕ) :
    Yields (regionLoop int16 list i word) (∀ region ∈ regions, Within region.1 3)
      (· = regionFields (regions.map fun (region_type, is_ro) => (region_type.toNat, is_ro))
        i word) := by
  induction listed generalizing i word with
  | nil => exact ⟨fun _ => ⟨word, rfl, rfl⟩, fun no => absurd nofun no⟩
  | cons head _ ih =>
    obtain ⟨type_, ro⟩ := head
    rw [List.forall_mem_cons]
    refine (json_read_int_yields type_ 3 none).bind fun _ a given => ?_
    refine .of_ok (json_read_bool_eq ro none) ?_
    subst given
    exact ih _ _

theorem map_region_yields {list : List Json} {regions : List (ℤ × Bool)}
    (place : cap.lookup "value" = some (.list list))
    (listed : List.Forall₂ (RegionAs int16) list regions) :
    Yields (map_region int16 (.dict cap)) (Capability.mapRegion regions).InRange
      (Says (Capability.mapRegion regions).items) := by
  have length := listed.length_eq
  refine .of_ok (json_read_list_eq place) ?_
  by_cases few : list.length ≤ 3
  · rw [if_pos few]
    refine (regionLoop_yields listed _ _).congr ?_ ?_
    · rw [Capability.InRange, ← length]
      exact and_iff_right few
    · rintro _ small rfl
      refine decodes_map_region (by rw [List.length_map]; omega) ?_
      intro region member
      obtain ⟨source, listed, rfl⟩ := List.mem_map.mp member
      exact toNat_lt (small source listed) (by decide)
  · rw [if_neg few]
    refine .error _ fun both => few ?_
    rw [length]
    exact both.1

theorem application_type_yields {type : ℤ}
    (given : HasInt int16 cap "value" type ∨ cap.lookup "value" = none ∧ type = 0) :
    Yields (application_type int16 (.dict cap)) (Capability.applicationType type).InRange
      (Says (Capability.applicationType type).items) := by
  have read : Yields (json_read_int int16 (.dict cap) "value" 0 2 (some 0)) (Within type 2)
      (· = type.toNat) := by
    rcases given with found | ⟨missing, rfl⟩
    · exact json_read_int_yields found 2 _
    · rw [json_read_int_eq 2 (json_read_value_default missing) (.inl rfl)]
      exact .ite fun _ => rfl
  refine read.map fun _ small given => ?_
  subst given
  exact decodes_application_type (toNat_lt small (by decide))

theorem min_kernel_version_yields {version : ℤ} (given : HasInt int16 cap "value" version) :
    Yields (min_kernel_version int16 (.dict cap)) (Capability.minKernelVersion version).InRange
      (Says (Capability.minKernelVersion version).items) := by
  refine (json_read_int_yields given (2 ^ 16 - 1) none).map fun _ small given => ?_
  subst given
  exact decodes_min_kernel_version (toNat_lt small (by decide))

theorem handle_table_size_yields {size : ℤ} (given : HasInt int16 cap "value" size) :
    Yields (handle_table_size int16 (.dict cap)) (Capability.handleTableSize size).InRange
      (Says (Capability.handleTableSize size).items) := by
  refine (json_read_int_yields given (2 ^ 10 - 1) none).map fun _ small given => ?_
  subst given
  exact decodes_handle_table_size (toNat_lt small (by decide))

theorem debug_flags_yields {allow force prod : Bool}
    (dict : cap.lookup "value" = some (.dict value)) (one : HasFlag value "allow_debug" allow)
    (two : HasFlag value "force_debug" force) (three : HasFlag value "force_debug_prod" prod) :
    Yields (debug_flags (.dict cap)) (Capability.debugFlags allow force prod).InRange
      (Says (Capability.debugFlags allow force prod).items) := by
  refine .of_ok (json_read_dict_eq dict) ?_
  refine .of_ok (json_read_flag_eq one) ?_
  refine .of_ok (json_read_flag_eq two) ?_
  refine .of_ok (json_read_flag_eq three) ?_
  exact .ite fun _ => decodes_debug_flags allow prod force

/-- What the loop over syscalls has left behind: the last number. -/
def Left (int16 : String → Option ℤ) : Option Locals → Option ℤ → Prop
  | none, none => True
  | some locals, some number =>
    readInt int16 locals.data = .ok number ∧ locals.val = number ∧ Within number 0xbf
  | _, _ => False

theorem syscallLoop_yields {dict : List (String × Json)} {numbers : List ℤ}
    (listed : List.Forall₂ (fun item number => IntAs int16 item.2 number) dict numbers)
    {groups before : List ℕ} (collected : Collected groups before) {last : Option ℤ}
    (left : Left int16 locals last) :
    Yields (syscallLoop int16 dict groups locals) (∀ number ∈ numbers, Within number 0xbf)
      fun (groups', locals') => Collected groups' (before ++ numbers.map Int.toNat) ∧
        Left int16 locals' (numbers.getLast?.or last) := by
  induction listed generalizing groups before locals last with
  | nil =>
    refine ⟨fun _ => ⟨_, rfl, ?_, left⟩, fun no => absurd nofun no⟩
    rw [List.map_nil, List.append_nil]
    exact collected
  | @cons item number dict numbers as _ ih =>
    rw [List.forall_mem_cons]
    refine .of_ok (readInt_eq as) ?_
    by_cases small : 0 ≤ number ∧ number ≤ 0xbf
    · rw [if_pos small]
      have now : Left int16 (some ⟨item.2, number⟩) (some number) := ⟨readInt_eq as, rfl, small⟩
      refine (ih (collected.add number.toNat) now).congr (and_iff_right small) ?_
      rintro ⟨groups', locals'⟩ - ⟨all, last'⟩
      rw [List.append_assoc] at all
      refine ⟨all, ?_⟩
      rw [List.getLast?_cons]
      cases rest : numbers.getLast? with
      | none =>
        rw [rest] at last'
        exact last'
      | some later =>
        rw [rest] at last'
        exact last'
    · rw [if_neg small]
      exact .error _ fun both => small both.1

theorem syscalls_yields {numbers : List ℤ} (dict : cap.lookup "value" = some (.dict value))
    (listed : List.Forall₂ (fun item number => IntAs int16 item.2 number) value numbers)
    {last : Option ℤ} (left : Left int16 locals last) :
    Yields (syscalls int16 (.dict cap) locals) (Capability.syscalls numbers).InRange
      fun (words, locals') => Decodes words (Capability.syscalls numbers).items ∧
        Left int16 locals' (numbers.getLast?.or last) := by
  refine .of_ok (json_read_dict_eq dict) ?_
  refine (syscallLoop_yields listed collected_nil left).map fun (groups, locals') _ given =>
    ⟨?_, given.2⟩
  have collected := given.1
  rw [List.nil_append] at collected
  rw [Capability.items, ← collected.items]
  exact decodes_groups collected.small 0 (by rw [collected.length])

/-- An interrupt as it is taken. -/
def takenIrq (last : Option ℤ) (irq : Option ℤ) : ℕ :=
  if irq = none then 0x3ff else (last.getD 0).toNat

theorem readIrq_yields {json : Json} {irq last : Option ℤ} (as : IrqAs int16 json irq)
    (left : Left int16 locals last) : Yields (readIrq int16 locals json)
      (irq = none ∨ last.isSome) fun taken => taken = takenIrq last irq ∧ taken < 2 ^ 10 := by
  cases as with
  | null => exact ⟨fun _ => ⟨_, rfl, rfl, by decide⟩, fun no => absurd (.inl rfl) no⟩
  | number number =>
    have given : json ≠ .null := by rcases number with rfl | ⟨text, rfl, -⟩ <;> nofun
    match locals, last, left with
    | none, none, _ =>
      have fails : readIrq int16 none json = .error .unboundLocalError := by
        cases json with
        | null => exact absurd rfl given
        | _ => rfl
      rw [fails]
      exact .error _ (by simp)
    | some locals, some last, ⟨read, same, nonneg, small⟩ =>
      have accepted : 0 ≤ locals.val ∧ locals.val ≤ 2 ^ 10 - 1 := by omega
      have taken : readIrq int16 (some locals) json = .ok last.toNat := by
        have stale : (readInt int16 locals.data >>= fun irq_value =>
            if 0 ≤ locals.val ∧ locals.val ≤ 2 ^ 10 - 1 then .ok irq_value.toNat
            else .error (.between "irq_pair" 0 (2 ^ 10 - 1))) = .ok last.toNat := by
          rw [read]
          exact if_pos accepted
        cases json with
        | null => exact absurd rfl given
        | _ => exact stale
      exact ⟨fun _ => ⟨last.toNat, taken, rfl, by omega⟩, fun no => absurd (.inr rfl) no⟩

theorem irq_pair_yields {first second : Json} {one two last : Option ℤ}
    (list : cap.lookup "value" = some (.list [first, second])) (one_ : IrqAs int16 first one)
    (two_ : IrqAs int16 second two) (left : Left int16 locals last) :
    Yields (irq_pair int16 (.dict cap) locals) (one = none ∧ two = none ∨ last.isSome)
      (· = 2047 + 2 ^ 11 * takenIrq last one + 2 ^ 21 * takenIrq last two) := by
  rw [and_or_right]
  refine .of_ok (json_read_list_eq list) ?_
  refine (readIrq_yields one_ left).bind fun a _ given => ?_
  refine (readIrq_yields two_ left).map fun b _ given' => ?_
  rw [← given.1, ← given'.1]
  exact irq_word given.2

end Capabilities

section Entries

variable {int16 : String → Option ℤ} {cap : List (String × Json)} {locals : Option Locals}
  {capability : Capability} {last : Option ℤ}

/-- The last number of a syscall after a capability. -/
def Capability.lastSyscall : Capability → Option ℤ → Option ℤ
  | syscalls numbers, last => numbers.getLast?.or last
  | _, last => last

/-- When a capability is accepted. -/
def Accepts (last : Option ℤ) : Capability → Prop
  | .mapPage _ => False
  | .irqPair one two => one = none ∧ two = none ∨ last.isSome
  | capability => capability.InRange

/-- The words of a capability are read as its items, but for those of interrupts. -/
def Written (last : Option ℤ) : Capability → List ℕ → Prop
  | .irqPair one two, words =>
    words = [2047 + 2 ^ 11 * takenIrq last one + 2 ^ 21 * takenIrq last two]
  | capability, words => Decodes words capability.items

theorem capabilityWords_yields (documented : Documented int16 cap capability)
    (left : Left int16 locals last) :
    Yields (capabilityWords int16 (.dict cap) locals) (Accepts last capability)
      fun (words, locals') => Written last capability words ∧
        Left int16 locals' (capability.lastSyscall last) := by
  cases documented with
  | kernel_flags type_ dict one two three four =>
    simp only [capabilityWords, json_read_str_eq type_]
    exact (kernel_flags_yields dict one two three four).map fun _ _ read => ⟨read, left⟩
  | syscalls type_ dict listed =>
    simp only [capabilityWords, json_read_str_eq type_]
    exact syscalls_yields dict listed left
  | map type_ dict one ro two io =>
    simp only [capabilityWords, json_read_str_eq type_]
    exact (map_yields dict one ro two io).map fun _ _ read => ⟨read, left⟩
  | map_page type_ _ =>
    simp only [capabilityWords, json_read_str_eq type_]
    exact .error _ id
  | map_region type_ place listed =>
    simp only [capabilityWords, json_read_str_eq type_]
    exact (map_region_yields place listed).map fun _ _ read => ⟨read, left⟩
  | irq_pair type_ place one two =>
    simp only [capabilityWords, json_read_str_eq type_]
    exact (irq_pair_yields place one two left).map fun _ _ word => ⟨word ▸ rfl, left⟩
  | application_type type_ value =>
    simp only [capabilityWords, json_read_str_eq type_]
    exact (application_type_yields value).map fun _ _ read => ⟨read, left⟩
  | min_kernel_version type_ value =>
    simp only [capabilityWords, json_read_str_eq type_]
    exact (min_kernel_version_yields value).map fun _ _ read => ⟨read, left⟩
  | handle_table_size type_ value =>
    simp only [capabilityWords, json_read_str_eq type_]
    exact (handle_table_size_yields value).map fun _ _ read => ⟨read, left⟩
  | debug_flags type_ dict one two three =>
    simp only [capabilityWords, json_read_str_eq type_]
    exact (debug_flags_yields dict one two three).map fun _ _ read => ⟨read, left⟩

/-- The last number of a syscall is one of a syscall. -/
def Bounded (last : Option ℤ) : Prop := ∀ number ∈ last, Within number 0xbf

theorem Left.bounded (left : Left int16 locals last) : Bounded last := by
  match locals, last, left with
  | none, none, _ => nofun
  | some locals, some last, ⟨_, _, small⟩ =>
    rintro _ ⟨⟩
    exact small

theorem Bounded.next (bounded : Bounded last) (inRange : capability.InRange) :
    Bounded (capability.lastSyscall last) := by
  cases capability with
  | syscalls numbers =>
    intro number member
    rcases Option.or_eq_some_iff.mp member with here | ⟨-, before⟩
    · exact inRange number (List.mem_of_getLast? here)
    · exact bounded number before
  | _ => exact bounded

theorem takenIrq_lt (bounded : Bounded last) (irq : Option ℤ) : takenIrq last irq < 2 ^ 10 := by
  rw [takenIrq]
  split_ifs
  · decide
  · cases last with
    | none => decide
    | some last =>
      obtain ⟨-, small⟩ := bounded last rfl
      show last.toNat < _
      omega

/-- What is written has 32 bits. -/
theorem Written.fit {words : List ℕ} (written : Written last capability words)
    (bounded : Bounded last) : ∀ word ∈ words, word < 2 ^ 32 := by
  cases capability with
  | irqPair one two =>
    obtain rfl : words = [_] := written
    have first := takenIrq_lt bounded one
    have second := takenIrq_lt bounded two
    simp only [List.forall_mem_cons]
    exact ⟨by omega, nofun⟩
  | _ => exact Decodes.fit written

theorem write_u32_foldlM {words : List ℕ} (fit : ∀ word ∈ words, word < 2 ^ 32)
    (stream : List Byte) :
    words.foldlM write_u32 stream = .ok (stream ++ words.flatMap packWord) := by
  induction words generalizing stream with
  | nil => rw [List.flatMap_nil, List.append_nil]; rfl
  | cons word rest ih =>
    rw [List.forall_mem_cons] at fit
    rw [List.foldlM_cons, write_u32, if_pos fit.1, List.flatMap_cons, ← List.append_assoc]
    exact ih fit.2 _

end Entries

section Runs

variable {int16 : String → Option ℤ} {locals : Option Locals} {last : Option ℤ}
  {list : List Json} {capabilities : List Capability}

/-- Every capability of a list is accepted. -/
def AllAccepted : Option ℤ → List Capability → Prop
  | _, [] => True
  | last, capability :: rest =>
    Accepts last capability ∧ AllAccepted (capability.lastSyscall last) rest

/-- The words of a list of capabilities. -/
inductive AllWritten : Option ℤ → List Capability → List ℕ → Prop
  | nil {last : Option ℤ} : AllWritten last [] []
  | cons {last : Option ℤ} {capability : Capability} {rest : List Capability}
    {words words' : List ℕ} (written : Written last capability words)
    (later : AllWritten (capability.lastSyscall last) rest words') :
    AllWritten last (capability :: rest) (words ++ words')

/-- An entry of the list of JSON. -/
def EntryAs (int16 : String → Option ℤ) (json : Json) (capability : Capability) : Prop :=
  ∃ items, json = .dict items ∧ Documented int16 items capability

theorem capLoop_yields (listed : List.Forall₂ (EntryAs int16) list capabilities) {cap_idx : ℕ}
    (few : cap_idx + list.length ≤ 32) (left : Left int16 locals last) (stream : List Byte) :
    Yields (capLoop int16 list cap_idx locals stream) (AllAccepted last capabilities)
      fun stream' => ∃ words, stream' = stream ++ words.flatMap packWord ∧
        AllWritten last capabilities words ∧ ∀ word ∈ words, word < 2 ^ 32 := by
  induction listed generalizing cap_idx locals last stream with
  | nil =>
    refine ⟨fun _ => ⟨stream, rfl, [], ?_, .nil, nofun⟩, fun no => absurd trivial no⟩
    rw [List.flatMap_nil, List.append_nil]
  | cons head _ ih =>
    obtain ⟨items, rfl, documented⟩ := head
    rw [List.length_cons] at few
    rw [capLoop, if_pos (by omega)]
    refine (capabilityWords_yields documented left).bind fun (words, locals') _ given => ?_
    have fit := given.1.fit left.bounded
    refine .of_ok (write_u32_foldlM fit stream) ?_
    refine (ih (by omega) given.2 _).congr Iff.rfl ?_
    rintro _ - ⟨later, rfl, written, fits⟩
    refine ⟨words ++ later, ?_, .cons given.1 written, List.forall_mem_append.mpr ⟨fit, fits⟩⟩
    rw [List.flatMap_append, List.append_assoc]

/-- No entry has a page, and the interrupts are both half the last syscall before them: then they
are moved to their place. -/
def Undisturbed : Option ℤ → List Capability → Prop
  | _, [] => True
  | last, capability :: rest =>
    (match capability with
      | .mapPage _ => False
      | .irqPair one two => ∃ irq, one = some irq ∧ two = some irq ∧ last = some (2 * irq)
      | _ => True) ∧ Undisturbed (capability.lastSyscall last) rest

theorem Decodes.some_iff {words : List ℕ} {items : List Item} (decodes : Decodes words items)
    {rest : List ℕ} {later : List Item} :
    decode (words ++ rest) = some (items ++ later) ↔ decode rest = some later := by
  rw [decodes.read, Option.map_eq_some_iff]
  exact ⟨fun ⟨_, read, same⟩ => List.append_cancel_left same ▸ read, fun read => ⟨_, read, rfl⟩⟩

/-- The fields of interrupts that are put a bit too low. -/
theorem irq_fields {a b : ℕ} (first : a < 2 ^ 10) (second : b < 2 ^ 10) (x y : ℕ) :
    (trailingOnes 32 (2047 + 2 ^ 11 * a + 2 ^ 21 * b) = 11 ∧
      field (2047 + 2 ^ 11 * a + 2 ^ 21 * b) 12 10 = x ∧
      field (2047 + 2 ^ 11 * a + 2 ^ 21 * b) 22 10 = y) ↔
    a % 2 = 0 ∧ a / 2 + 512 * (b % 2) = x ∧ b / 2 = y := by
  have low : field (2047 + 2 ^ 11 * a + 2 ^ 21 * b) 12 10 = a / 2 + 512 * (b % 2) := by
    rw [field]
    omega
  have high : field (2047 + 2 ^ 11 * a + 2 ^ 21 * b) 22 10 = b / 2 := by
    rw [field]
    omega
  rw [low, high]
  refine and_congr_left fun _ => ⟨fun ones => ?_, fun even => ?_⟩
  · by_contra odd
    have more : 12 ≤ trailingOnes 32 (2047 + 2 ^ 11 * a + 2 ^ 21 * b) :=
      le_trailingOnes (by decide) (by omega)
    omega
  · exact trailingOnes_of 11 (by decide) (by omega)

/-- Interrupts as they are taken, and as they are read. -/
theorem decode_irqPair_iff {one two : Option ℤ} (bounded : Bounded last)
    (inRange : (Capability.irqPair one two).InRange) (accepted : Accepts last (.irqPair one two))
    {rest : List ℕ} {later : List Item} :
    decode ((2047 + 2 ^ 11 * takenIrq last one + 2 ^ 21 * takenIrq last two) :: rest) =
      some (.irqPair (irqNumber one) (irqNumber two) :: later) ↔
    (∃ irq, one = some irq ∧ two = some irq ∧ last = some (2 * irq)) ∧
      decode rest = some later := by
  have first := takenIrq_lt bounded one
  have second := takenIrq_lt bounded two
  have fields := irq_fields first second (irqNumber one) (irqNumber two)
  rw [decode_irq_iff (by omega), ← and_assoc, ← and_assoc, and_assoc (a := _ = 11), fields]
  refine and_congr_left fun _ => ?_
  match one, two, last, bounded, accepted with
  | none, _, _, _, _ => simp [takenIrq]
  | some one, none, some last, _, _ => simp [takenIrq, irqNumber]
  | some one, none, none, _, accepted => simp [Accepts] at accepted
  | some one, some two, none, _, accepted => simp [Accepts] at accepted
  | some one, some two, some last, bounded, _ =>
    obtain ⟨nonneg, small⟩ := bounded last rfl
    have within : 0 ≤ one ∧ 0 ≤ two := ⟨(inRange.1 one rfl).1, (inRange.2 two rfl).1⟩
    simp only [takenIrq, irqNumber, reduceCtorEq, if_false, Option.getD_some, Option.map_some,
      Option.some.injEq]
    constructor
    · rintro ⟨even, low, high⟩
      exact ⟨one, rfl, by omega, by omega⟩
    · rintro ⟨irq, rfl, rfl, rfl⟩
      omega

/-- What is written is read back exactly when it is undisturbed. -/
theorem AllWritten.decode_iff {words : List ℕ} (written : AllWritten last capabilities words)
    (bounded : Bounded last) (inRange : ∀ capability ∈ capabilities, capability.InRange)
    (accepted : AllAccepted last capabilities) :
    decode words = some (capabilities.flatMap Capability.items) ↔
      Undisturbed last capabilities := by
  induction written with
  | nil => exact iff_of_true rfl trivial
  | @cons last capability rest words words' written _ ih =>
    rw [List.forall_mem_cons] at inRange
    have later := ih (bounded.next inRange.1) inRange.2 accepted.2
    rw [List.flatMap_cons]
    cases capability with
    | mapPage page => exact accepted.1.elim
    | irqPair one two =>
      obtain rfl : words = [_] := written
      show decode (_ :: words') = some (_ :: rest.flatMap Capability.items) ↔ _
      exact (decode_irqPair_iff bounded inRange.1 accepted.1).trans (and_congr_right fun _ => later)
    | _ => exact (Decodes.some_iff written).trans (later.trans (and_iff_right trivial).symm)

theorem Undisturbed.accepted (undisturbed : Undisturbed last capabilities)
    (inRange : ∀ capability ∈ capabilities, capability.InRange) :
    AllAccepted last capabilities := by
  induction capabilities generalizing last with
  | nil => trivial
  | cons capability rest ih =>
    rw [List.forall_mem_cons] at inRange
    refine ⟨?_, ih undisturbed.2 inRange.2⟩
    cases capability with
    | mapPage page => exact undisturbed.1
    | irqPair one two =>
      obtain ⟨irq, -, -, rfl⟩ := undisturbed.1
      exact .inr rfl
    | _ => exact inRange.1

/-- The contents have a list of capabilities, of at most 32 entries. -/
def ContentsAs (int16 : String → Option ℤ) (contents : Json) (capabilities : List Capability) :
    Prop :=
  ∃ items list, contents = .dict items ∧ items.lookup "kernel_capabilities" = some (.list list) ∧
    List.Forall₂ (EntryAs int16) list capabilities ∧ list.length ≤ 32

/-- Capabilities in their ranges are written, and read back from the descriptors; others are not. -/
def Encodes (int16 : String → Option ℤ) (contents : Json) (capabilities : List Capability) : Prop :=
  ((∀ capability ∈ capabilities, capability.InRange) →
    ∃ stream, write_kc int16 contents = .ok stream ∧
      decode (descriptors stream) = some (capabilities.flatMap Capability.items)) ∧
  ((∃ capability ∈ capabilities, ¬capability.InRange) →
    ∃ error, write_kc int16 contents = .error error)

/-- Capabilities are written and read back exactly when no entry is a page or disturbed interrupts;
values outside their fields are rejected exactly when some entry is refused. -/
theorem encodesCapabilities_iff {contents : Json} (given : ContentsAs int16 contents capabilities) :
    Encodes int16 contents capabilities ↔
      ((∀ capability ∈ capabilities, capability.InRange) → Undisturbed none capabilities) ∧
      ((∃ capability ∈ capabilities, ¬capability.InRange) → ¬AllAccepted none capabilities) := by
  obtain ⟨items, list, rfl, place, listed, few⟩ := given
  have nothing : Left int16 none none := trivial
  have yields : Yields (write_kc int16 (.dict items)) (AllAccepted none capabilities)
      fun stream => ∃ words, stream = [] ++ words.flatMap packWord ∧
        AllWritten none capabilities words ∧ ∀ word ∈ words, word < 2 ^ 32 :=
    .of_ok (json_read_list_eq place) (capLoop_yields listed (by omega) nothing [])
  refine and_congr (imp_congr_right fun inRange => ?_) (imp_congr_right fun _ => ?_)
  · by_cases accepted : AllAccepted none capabilities
    · obtain ⟨stream, ran, words, rfl, written, fit⟩ := yields.1 accepted
      rw [ran, List.nil_append, ← written.decode_iff nofun inRange accepted]
      constructor
      · rintro ⟨_, ⟨⟩, read⟩
        rwa [descriptors_flatMap fit] at read
      · intro read
        exact ⟨_, rfl, by rwa [descriptors_flatMap fit]⟩
    · obtain ⟨error, failed⟩ := yields.2 accepted
      rw [failed]
      exact iff_of_false (by rintro ⟨_, ⟨⟩, _⟩) fun undisturbed =>
        accepted (undisturbed.accepted inRange)
  · constructor
    · rintro ⟨error, failed⟩ accepted
      obtain ⟨stream, ran, -⟩ := yields.1 accepted
      cases ran.symm.trans failed
    · exact yields.2

end Runs

section Contents

/-- One capability with a number, and an interpretation of texts that reads none. -/
def numberContents (type : String) (value : ℤ) : Json :=
  .dict [("kernel_capabilities", .list [.dict [("type", .str type), ("value", .int value)]])]

theorem numberContents_as {int16 : String → Option ℤ} {type : String} {value : ℤ}
    {capability : Capability}
    (documented : Documented int16 [("type", .str type), ("value", .int value)] capability) :
    ContentsAs int16 (numberContents type value) [capability] :=
  ⟨_, _, rfl, rfl, .cons ⟨_, rfl, documented⟩ .nil, Nat.le_of_ble_eq_true rfl⟩

theorem encodes_handle_table_size : Encodes (fun _ => none)
    (numberContents "handle_table_size" 0x200) [.handleTableSize 0x200] := by
  have given : ContentsAs (fun _ => none) (numberContents "handle_table_size" 0x200)
      [.handleTableSize 0x200] :=
    numberContents_as (.handle_table_size rfl ⟨_, rfl, .inl rfl⟩)
  have inRange : (Capability.handleTableSize 0x200).InRange := ⟨by decide, by decide⟩
  refine (encodesCapabilities_iff given).mpr ⟨fun _ => ⟨trivial, trivial⟩, ?_⟩
  rintro ⟨_, member, outside⟩
  cases List.mem_singleton.mp member
  exact absurd inRange outside

/-- A page is not read, whatever it is. -/
theorem not_encodes_map_page : ContentsAs (fun _ => none) (numberContents "map_page" 1)
      [.mapPage 1] ∧ ¬Encodes (fun _ => none) (numberContents "map_page" 1) [.mapPage 1] := by
  refine ⟨numberContents_as (.map_page rfl ⟨_, rfl, .inl rfl⟩), fun encodes => ?_⟩
  have inRange : ∀ capability ∈ [Capability.mapPage 1], capability.InRange := by
    intro capability member
    cases List.mem_singleton.mp member
    exact ⟨by decide, by decide⟩
  obtain ⟨stream, ran, -⟩ := encodes.1 inRange
  cases ran

end Contents

end Hakkun.Tools.BuildNpdm
