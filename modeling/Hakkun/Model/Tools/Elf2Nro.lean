import Hakkun.Model.Core.Integer

/-! # Conversion of an ELF to an NRO

Translated from `elf2nro.py` and `NroHeader` of `libnxo.py`. An ELF is what `elftools` makes of it:
its architecture, its segments and the bytes of the stream. The output is the bytes of the file that
is closed at the end.
-/

namespace Hakkun.Tools.Elf2Nro

abbrev Byte := BitVec 8

/-! ## `struct` -/

/-- A field of a format with its value: `I`, `4x`, `32s`. -/
inductive Field where
  | I (value : ℤ)
  | x (count : ℕ)
  | s (bytes : List Byte)

/-- `struct.pack('<I', value)` of a value that fits. -/
def packWord (value : ℕ) : List Byte :=
  [.ofNat 8 value, .ofNat 8 (value / 0x100), .ofNat 8 (value / 0x10000),
    .ofNat 8 (value / 0x1000000)]

/-- `None` is a `struct.error`. -/
def Field.pack : Field → Option (List Byte)
  | I value => if 0 ≤ value ∧ value.toNat < 2 ^ 32 then some (packWord value.toNat) else none
  | x count => some (List.replicate count 0)
  | s bytes => some bytes

def structPack (fields : List Field) : Option (List Byte) :=
  (fields.mapM Field.pack).map List.flatten

/-- `struct.unpack_from('<I', data, pos)`. -/
def word (data : List Byte) (pos : ℕ) : ℕ :=
  let byte (i : ℕ) : ℕ := (data.getD (pos + i) 0).toNat
  byte 0 + 0x100 * byte 1 + 0x10000 * byte 2 + 0x1000000 * byte 3

/-- `buffer[pos:pos + len(data)] = data`. -/
def splice (buffer : List Byte) (pos : ℕ) (data : List Byte) : List Byte :=
  buffer.take pos ++ data ++ buffer.drop (pos + data.length)

/-! ## Headers -/

@[ext] structure NroSegment where
  offset : ℕ
  segment_size : ℕ
  deriving DecidableEq

def NroSegment.load (data : List Byte) (pos : ℕ) : NroSegment :=
  ⟨word data pos, word data (pos + 4)⟩

def NroSegment.save (segment : NroSegment) : Option (List Byte) :=
  structPack [.I segment.offset, .I segment.segment_size]

@[ext] structure NroHeader where
  branch : ℕ
  mod0_offset : ℕ
  version_offset : ℕ
  magic : ℕ
  version : ℕ
  file_size : ℕ
  flags : ℕ
  text_segment : NroSegment
  rodata_segment : NroSegment
  data_segment : NroSegment
  bss_size : ℤ
  module_id : List Byte
  dso_handle_offset : ℕ
  embedded_segment : NroSegment
  dynstr_segment : NroSegment
  dynsym_segment : NroSegment

namespace NroHeader

def size : ℕ := 0x80

def load (data : List Byte) : Option NroHeader :=
  if data.length < size then none
  else some {
    branch := word data 0
    mod0_offset := word data 4
    version_offset := word data 8
    magic := word data 0x10
    version := word data 0x14
    file_size := word data 0x18
    flags := word data 0x1c
    bss_size := word data 0x38
    module_id := (data.drop 0x40).take 32
    dso_handle_offset := word data 0x60
    text_segment := .load data 0x20
    rodata_segment := .load data 0x28
    data_segment := .load data 0x30
    embedded_segment := .load data 0x68
    dynstr_segment := .load data 0x70
    dynsym_segment := .load data 0x78 }

def save (header : NroHeader) : Option (List Byte) := do
  let outBuffer ← structPack
    [.I header.branch, .I header.mod0_offset, .I header.version_offset, .x 4,
      .I header.magic, .I header.version, .I header.file_size, .I header.flags, .x 24,
      .I header.bss_size, .x 4, .s header.module_id, .I header.dso_handle_offset, .x 4, .x 24]
  let outBuffer := splice outBuffer 0x20 (← header.text_segment.save)
  let outBuffer := splice outBuffer 0x28 (← header.rodata_segment.save)
  let outBuffer := splice outBuffer 0x30 (← header.data_segment.save)
  let outBuffer := splice outBuffer 0x68 (← header.embedded_segment.save)
  let outBuffer := splice outBuffer 0x70 (← header.dynstr_segment.save)
  some (splice outBuffer 0x78 (← header.dynsym_segment.save))

end NroHeader

/-! ## Files -/

/-- A file that is written. -/
structure OutFile where
  bytes : List Byte := []
  position : ℕ := 0

def OutFile.seek (out : OutFile) (position : ℕ) : OutFile := { out with position := position }

/-- `write`; what is between the end of the file and the position becomes zero. -/
def OutFile.write (out : OutFile) (data : List Byte) : OutFile :=
  if data = [] then out
  else
    let bytes := out.bytes ++ List.replicate (out.position - out.bytes.length) 0
    { bytes := splice bytes out.position data
      position := out.position + data.length }

/-- `get_machine_arch`, as far as it is told apart. -/
inductive MachineArch where
  | ARM
  | AArch64
  | other
  deriving DecidableEq

structure Segment where
  isLoad : Bool
  p_offset : ℕ
  p_vaddr : ℕ
  p_filesz : ℕ
  p_memsz : ℕ
  deriving DecidableEq

structure Elf where
  machineArch : MachineArch
  segments : List Segment
  stream : List Byte

/-- `stream.seek(offset)` and `stream.read(size)`; a negative size reads all. -/
def Elf.read (elf : Elf) (offset : ℕ) (size : ℤ) : List Byte :=
  if size < 0 then elf.stream.drop offset else (elf.stream.drop offset).take size.toNat

inductive Error where
  | unsupportedArch
  | segmentCount (count : ℕ)
  | structError

/-- `(size + 0xFFF) & ~0xFFF`. -/
def pageAlign (size : ℕ) : ℕ := (size + 0xFFF) / 0x1000 * 0x1000

/-- The data of a segment and its zeros. -/
def OutFile.writeSegment (out : OutFile) (elf : Elf) (offset : ℕ) (size : ℤ)
    (segment_size p_filesz : ℕ) : OutFile :=
  (out.write (elf.read offset size)).write (List.replicate (segment_size - p_filesz) 0)

/-- What `-h` appends. -/
def assetHeader : List Byte := packWord 0x54455341 ++ List.replicate 52 0

/-- The part of `main` behind the load of the header. -/
def NroHeader.write (header : NroHeader) (elf : Elf) (text rodata data : Segment)
    (is_homebrew : Bool) : Except Error (List Byte) :=
  let out : OutFile := OutFile.seek {} size
  let text_segment : NroSegment := ⟨out.position - size, pageAlign (text.p_filesz + size)⟩
  let out := out.writeSegment elf (text.p_offset + size) (text.p_filesz - size)
    text_segment.segment_size text.p_filesz
  let rodata_segment : NroSegment := ⟨out.position, pageAlign rodata.p_filesz⟩
  let out := out.writeSegment elf rodata.p_offset rodata.p_filesz
    rodata_segment.segment_size rodata.p_filesz
  let data_segment : NroSegment := ⟨out.position, pageAlign data.p_filesz⟩
  let out := out.writeSegment elf data.p_offset data.p_filesz
    data_segment.segment_size data.p_filesz
  let header := { header with
    text_segment := text_segment
    rodata_segment := rodata_segment
    data_segment := data_segment
    bss_size := data.p_memsz - data.p_filesz
    file_size := out.position }
  let out := if is_homebrew then out.write assetHeader else out
  match header.save with
  | none => .error .structError
  | some saved => .ok ((out.seek 0).write saved).bytes

/-- `main` from the check of the architecture on. -/
def convert (elf : Elf) (is_homebrew : Bool) : Except Error (List Byte) :=
  if elf.machineArch = .other then .error .unsupportedArch
  else
    match elf.segments.filter (·.isLoad) with
    | [text, rodata, data] =>
      match NroHeader.load (elf.read text.p_offset NroHeader.size) with
      | none => .error .structError
      | some header => header.write elf text rodata data is_homebrew
    | segments => .error (.segmentCount segments.length)

end Hakkun.Tools.Elf2Nro
