import Hakkun.Model.Tools.Elf2Nro

/-! # Kernel capabilities of an NPDM

Translated from `write_kc` of `build_npdm.py` and the readers of JSON that it uses. `int(data, 16)`
is given as a function, without a result where it raises an error. A dictionary is its items in
order.
-/

namespace Hakkun.Tools.BuildNpdm

open Elf2Nro (Byte packWord)

/-- A value of `json`. -/
inductive Json where
  | null
  | bool (value : Bool)
  | int (value : ℤ)
  | float
  | str (value : String)
  | list (items : List Json)
  | dict (items : List (String × Json))

inductive Error where
  /-- `abort` with a text. -/
  | text (message : String)
  /-- A key must be of some type. -/
  | mustBe (key type : String)
  /-- A key must be between two numbers. -/
  | between (key : String) (min_val max_val : ℤ)
  /-- A key is not found, of which the text has the first character. -/
  | missing (key : String)
  | unrecognised (type_ : String)
  | typeError
  | valueError
  | unboundLocalError
  | structError

/-! ## JSON -/

/-- A number is no container, which `map_page` asks for a key. -/
def json_read_value (json : Json) (key : String) (default : Option Json) : Except Error Json :=
  match json with
  | .dict items =>
    match items.lookup key with
    | some value => .ok value
    | none => match default with
      | some value => .ok value
      | none => .error (.missing key)
  | _ => .error .typeError

def json_read_dict (json : Json) (key : String) : Except Error (List (String × Json)) := do
  match ← json_read_value json key none with
  | .dict items => .ok items
  | _ => .error (.mustBe key "dict")

def json_read_list (json : Json) (key : String) : Except Error (List Json) := do
  match ← json_read_value json key none with
  | .list items => .ok items
  | _ => .error (.mustBe key "list")

def json_read_bool (json : Json) (key : String) (default : Option Bool) : Except Error Bool := do
  match ← json_read_value json key (default.map .bool) with
  | .bool value => .ok value
  | _ => .error (.mustBe key "boolean")

def json_read_str (json : Json) (key : String) : Except Error String := do
  match ← json_read_value json key none with
  | .str value => .ok value
  | _ => .error (.mustBe key "string")

section Integers

variable (int16 : String → Option ℤ)

/-- What is done three times with a value that is an `int`, as a `bool` is, or a `str`; `abort` does
not take two arguments. -/
def readInt : Json → Except Error ℤ
  | .int value => .ok value
  | .bool value => .ok value.toNat
  | .str value => match int16 value with
    | some value => .ok value
    | none => .error .valueError
  | _ => .error .typeError

/-- `min_val` is not negative. -/
def json_read_int (json : Json) (key : String) (min_val max_val : ℤ) (default : Option ℤ) :
    Except Error ℕ := do
  let val ← readInt int16 (← json_read_value json key (default.map .int))
  if min_val ≤ val ∧ val ≤ max_val then .ok val.toNat
  else .error (.between key min_val max_val)

def json_read_u16 (json : Json) (key : String) : Except Error ℕ :=
  json_read_int int16 json key 0 (2 ^ 16 - 1) none

def json_read_u8 (json : Json) (key : String) : Except Error ℕ :=
  json_read_int int16 json key 0 (2 ^ 8 - 1) none

/-! ## Capabilities -/

/-- A flag at a bit. -/
def flag (value : Bool) (n : ℕ) : ℕ := if value then 1 <<< n else 0

def kernel_flags (cap : Json) : Except Error ℕ := do
  let value := .dict (← json_read_dict cap "value")
  let cap := 1 <<< 3 - 1
  let cap := cap ||| (← json_read_int int16 value "highest_thread_priority" 0 63 none) <<< 4
  let cap := cap ||| (← json_read_int int16 value "lowest_thread_priority" 0 63 none) <<< 10
  let cap := cap ||| (← json_read_u8 int16 value "lowest_cpu_id") <<< 16
  return cap ||| (← json_read_u8 int16 value "highest_cpu_id") <<< 24

/-- The variables `data` and `val` of the loop over syscalls, which outlive it. -/
structure Locals where
  data : Json
  val : ℤ

/-- `groups[val // 24] |= 1 << (val % 24)`. -/
def addSyscall (groups : List ℕ) (val : ℕ) : List ℕ :=
  groups.modify (val / 24) (· ||| 1 <<< (val % 24))

def syscallLoop : List (String × Json) → List ℕ → Option Locals →
    Except Error (List ℕ × Option Locals)
  | [], groups, locals => .ok (groups, locals)
  | (_, data) :: rest, groups, _ => do
    let val ← readInt int16 data
    if 0 ≤ val ∧ val ≤ 0xbf then syscallLoop rest (addSyscall groups val.toNat) (some ⟨data, val⟩)
    else .error (.text "syscall values must be between 0 and 0xbf")

/-- The words of the groups that are not empty. -/
def syscallWords (groups : List ℕ) : List ℕ :=
  groups.zipIdx.filterMap fun (group, idx) =>
    if group = 0 then none else some (1 <<< 4 - 1 ||| group <<< 5 ||| idx <<< 29)

def syscalls (cap : Json) (locals : Option Locals) : Except Error (List ℕ × Option Locals) := do
  let value ← json_read_dict cap "value"
  let (groups, locals) ← syscallLoop int16 value (List.replicate 8 0) locals
  return (syscallWords groups, locals)

def map (cap : Json) : Except Error (List ℕ) := do
  let value := .dict (← json_read_dict cap "value")
  let cap := 1 <<< 6 - 1
  let cap := cap ||| (← json_read_int int16 value "address" 0 (2 ^ 24 - 1) none) <<< 7
  let first := cap ||| flag (← json_read_bool value "is_ro" none) 31
  let cap := 1 <<< 6 - 1
  let cap := cap ||| (← json_read_int int16 value "size" 0 (2 ^ 20 - 1) none) <<< 7
  let second := cap ||| flag (← json_read_bool value "is_io" none) 31
  return [first, second]

/-- The key is read from the number that `cap` has become. -/
def map_page : Except Error ℕ := do
  let cap := 1 <<< 7 - 1
  return cap ||| (← json_read_int int16 (.int cap) "value" 0 (2 ^ 24 - 1) none) <<< 8

def regionLoop : List Json → ℕ → ℕ → Except Error ℕ
  | [], _, cap => .ok cap
  | region :: rest, i, cap =>
    match region with
    | .dict items => do
      let region_type ← json_read_int int16 (.dict items) "region_type" 0 3 none
      let cap := cap ||| region_type <<< (11 + 7 * i)
      let cap := cap ||| flag (← json_read_bool (.dict items) "is_ro" none) (17 + 7 * i)
      regionLoop rest (i + 1) cap
    | _ => .error (.text "`map_region` entries must be dicts")

def map_region (cap : Json) : Except Error ℕ := do
  let value ← json_read_list cap "value"
  if value.length ≤ 3 then regionLoop int16 value 0 (1 <<< 10 - 1)
  else .error (.text "`map_region` can have a maximum of 3 regions")

/-- What is tested and taken is what the loop over syscalls left behind. -/
def readIrq (locals : Option Locals) : Json → Except Error ℕ
  | .null => .ok 0x3ff
  | _ => match locals with
    | none => .error .unboundLocalError
    | some locals => do
      let irq_value ← readInt int16 locals.data
      if 0 ≤ locals.val ∧ locals.val ≤ 2 ^ 10 - 1 then .ok irq_value.toNat
      else .error (.between "irq_pair" 0 (2 ^ 10 - 1))

def irqLoop (locals : Option Locals) : List Json → ℕ → ℕ → Except Error ℕ
  | [], _, cap => .ok cap
  | irq :: rest, i, cap => do
    irqLoop locals rest (i + 1) (cap ||| (← readIrq int16 locals irq) <<< (11 + i * 10))

def irq_pair (cap : Json) (locals : Option Locals) : Except Error ℕ := do
  let value ← json_read_list cap "value"
  if value.length = 2 then irqLoop int16 locals value 0 (1 <<< 11 - 1)
  else .error (.text "`irq_pair` must contain 2 elements")

def application_type (cap : Json) : Except Error ℕ := do
  let value ← json_read_int int16 cap "value" 0 2 (some 0)
  return 1 <<< 13 - 1 ||| value <<< 14

def min_kernel_version (cap : Json) : Except Error ℕ := do
  let value ← json_read_u16 int16 cap "value"
  return 1 <<< 14 - 1 ||| value <<< 15

def handle_table_size (cap : Json) : Except Error ℕ := do
  let value ← json_read_int int16 cap "value" 0 (2 ^ 10 - 1) none
  return 1 <<< 15 - 1 ||| value <<< 16

def debug_flags (cap : Json) : Except Error ℕ := do
  let value := .dict (← json_read_dict cap "value")
  let allow_debug ← json_read_bool value "allow_debug" (some false)
  let force_debug ← json_read_bool value "force_debug" (some false)
  let force_debug_prod ← json_read_bool value "force_debug_prod" (some false)
  if allow_debug.toNat + force_debug.toNat + force_debug_prod.toNat ≤ 1 then
    .ok (1 <<< 16 - 1 ||| flag allow_debug 17 ||| flag force_debug_prod 18 ||| flag force_debug 19)
  else .error (.text
    "only one of `allow_debug`, `force_debug`, or `force_debug_prod` can be set")

/-- The words of a capability. -/
def capabilityWords (cap : Json) (locals : Option Locals) :
    Except Error (List ℕ × Option Locals) := do
  let one (word : Except Error ℕ) : Except Error (List ℕ × Option Locals) := do
    return ([← word], locals)
  let type_ ← json_read_str cap "type"
  if type_ = "kernel_flags" then one (kernel_flags int16 cap)
  else if type_ = "syscalls" then syscalls int16 cap locals
  else if type_ = "map" then return (← map int16 cap, locals)
  else if type_ = "map_page" then one (map_page int16)
  else if type_ = "map_region" then one (map_region int16 cap)
  else if type_ = "irq_pair" then one (irq_pair int16 cap locals)
  else if type_ = "application_type" then one (application_type int16 cap)
  else if type_ = "min_kernel_version" then one (min_kernel_version int16 cap)
  else if type_ = "handle_table_size" then one (handle_table_size int16 cap)
  else if type_ = "debug_flags" then one (debug_flags cap)
  else .error (.unrecognised type_)

/-- `BinaryWriter.write_u32`, at the end of the stream. -/
def write_u32 (stream : List Byte) (value : ℕ) : Except Error (List Byte) :=
  if value < 2 ^ 32 then .ok (stream ++ packWord value) else .error .structError

def capLoop : List Json → ℕ → Option Locals → List Byte → Except Error (List Byte)
  | [], _, _, stream => .ok stream
  | cap :: rest, cap_idx, locals, stream =>
    match cap with
    | .dict items =>
      if cap_idx < 32 then do
        let (words, locals) ← capabilityWords int16 (.dict items) locals
        capLoop rest (cap_idx + 1) locals (← words.foldlM write_u32 stream)
      else .error (.text "too many kernel capabilities (max = 32)")
    | _ => .error (.text "kernel capabilities must be dicts")

def write_kc (contents : Json) : Except Error (List Byte) := do
  capLoop int16 (← json_read_list contents "kernel_capabilities") 0 none []

end Integers

end Hakkun.Tools.BuildNpdm
