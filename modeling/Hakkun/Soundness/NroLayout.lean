import Hakkun.Model.Tools.Elf2Nro
import Mathlib.Tactic.IntervalCases

/-! # The layout of a converted module

The text of a module begins with room for the header, which is left out when the text is copied. The
size of the text in the file still has the header in it; the announced size adds it once more, so
that the other segments are where the linker put them only if that does not reach another page.
-/

namespace Hakkun.Tools.Elf2Nro

variable {elf : Elf} {text rodata data : Segment}

section Words

variable {fields : List Field}

/-- The bytes of a field whose value fits. -/
def Field.bytes : Field → List Byte
  | I value => packWord value.toNat
  | x count => List.replicate count 0
  | s bytes => bytes

def Field.Fits : Field → Prop
  | I value => 0 ≤ value ∧ value.toNat < 2 ^ 32
  | _ => True

instance : (field : Field) → Decidable field.Fits
  | .I value => inferInstanceAs (Decidable (0 ≤ value ∧ value.toNat < 2 ^ 32))
  | .x _ | .s _ => isTrue trivial

def Field.length : Field → ℕ
  | I _ => 4
  | x count => count
  | s bytes => bytes.length

theorem Field.length_bytes (field : Field) : field.bytes.length = field.length := by
  cases field with
  | I value => rfl
  | x count => exact List.length_replicate
  | s bytes => rfl

theorem length_flatMap_bytes (fields : List Field) :
    (fields.flatMap Field.bytes).length = (fields.map Field.length).sum := by
  rw [List.length_flatMap]
  exact congrArg List.sum (List.map_congr_left fun field _ => field.length_bytes)

theorem Field.pack_eq (field : Field) :
    field.pack = if field.Fits then some field.bytes else none := by
  cases field with
  | I value => rfl
  | x count => exact (if_pos trivial).symm
  | s bytes => exact (if_pos trivial).symm

theorem structPack_eq (fields : List Field) : structPack fields =
    if ∀ field ∈ fields, field.Fits then some (fields.flatMap Field.bytes) else none := by
  have packed : fields.mapM Field.pack =
      if ∀ field ∈ fields, field.Fits then some (fields.map Field.bytes) else none := by
    induction fields with
    | nil => rfl
    | cons field rest ih =>
      rw [List.mapM_cons, ih, Field.pack_eq]
      rw [List.map_cons, ite_cond_congr (propext List.forall_mem_cons), ite_and]
      split_ifs <;> rfl
  rw [structPack, packed]
  split_ifs <;> rfl

theorem word_append (before after : List Byte) (k : ℕ) :
    word (before ++ after) (before.length + k) = word after k := by
  have moved (i : ℕ) : (before ++ after).getD (before.length + k + i) 0 = after.getD (k + i) 0 := by
    rw [List.getD_eq_getElem?_getD, List.getElem?_append_right (by omega),
      List.getD_eq_getElem?_getD]
    congr 2
    omega
  simp only [word, moved]

theorem word_packWord {value : ℕ} (fits : value < 2 ^ 32) (after : List Byte) :
    word (packWord value ++ after) 0 = value := by
  simp only [word, packWord, List.cons_append, Nat.zero_add, List.getD_cons_zero,
    List.getD_cons_succ, BitVec.toNat_ofNat]
  omega

theorem word_lt (data : List Byte) (pos : ℕ) : word data pos < 2 ^ 32 := by
  have byte (i : ℕ) : (data.getD (pos + i) 0).toNat < 256 := BitVec.isLt _
  have := byte 0
  have := byte 1
  have := byte 2
  have := byte 3
  simp only [word]
  omega

/-- A packed field, with what is before and behind it. -/
theorem flatMap_bytes_eq {i : ℕ} {field : Field} (place : fields[i]? = some field)
    (after : List Byte) : fields.flatMap Field.bytes ++ after =
      (fields.take i).flatMap Field.bytes ++
        (field.bytes ++ ((fields.drop (i + 1)).flatMap Field.bytes ++ after)) := by
  obtain ⟨bound, here⟩ := List.getElem?_eq_some_iff.mp place
  have split : fields = fields.take i ++ field :: fields.drop (i + 1) := by
    rw [← here, ← List.drop_eq_getElem_cons bound, List.take_append_drop]
  conv_lhs => rw [split]
  simp

/-- A word is read back from where the fields before it end. -/
theorem word_flatMap {i : ℕ} {value : ℤ} (place : fields[i]? = some (.I value))
    (fits : (Field.I value).Fits) (after : List Byte) :
    word (fields.flatMap Field.bytes ++ after) ((fields.take i).map Field.length).sum =
      value.toNat := by
  obtain ⟨nonneg, small⟩ := fits
  rw [flatMap_bytes_eq place, ← length_flatMap_bytes]
  have read := word_append ((fields.take i).flatMap Field.bytes)
    ((Field.I value).bytes ++ ((fields.drop (i + 1)).flatMap Field.bytes ++ after)) 0
  rw [Nat.add_zero] at read
  exact read.trans (word_packWord (by omega) _)

end Words

section Header

namespace NroSegment

def fields (segment : NroSegment) : List Field :=
  [.I segment.offset, .I segment.segment_size]

end NroSegment

namespace NroHeader

variable {header : NroHeader}

/-- The fields of a saved header, with those of its segments in their places. -/
def fields (header : NroHeader) : List Field :=
  [.I header.branch, .I header.mod0_offset, .I header.version_offset, .x 4, .I header.magic,
    .I header.version, .I header.file_size, .I header.flags] ++
  (header.text_segment.fields ++ header.rodata_segment.fields ++ header.data_segment.fields) ++
  [.I header.bss_size, .x 4, .s header.module_id, .I header.dso_handle_offset, .x 4] ++
  (header.embedded_segment.fields ++ header.dynstr_segment.fields ++ header.dynsym_segment.fields)

def Fits (header : NroHeader) : Prop := ∀ field ∈ header.fields, field.Fits

def bytes (header : NroHeader) : List Byte := header.fields.flatMap Field.bytes

theorem length_bytes (id : header.module_id.length = 32) : header.bytes.length = size := by
  rw [bytes, length_flatMap_bytes]
  simp [fields, NroSegment.fields, Field.length, id, size]

/-- Where the fields of a header start. -/
def offsets : List ℕ :=
  [0, 4, 8, 0xc, 0x10, 0x14, 0x18, 0x1c, 0x20, 0x24, 0x28, 0x2c, 0x30, 0x34, 0x38, 0x3c, 0x40, 0x60,
    0x64, 0x68, 0x6c, 0x70, 0x74, 0x78, 0x7c]

theorem sum_take_fields (id : header.module_id.length = 32) {i : ℕ} (bound : i < 25) :
    ((header.fields.take i).map Field.length).sum = offsets.getD i 0 := by
  interval_cases i <;> simp [fields, NroSegment.fields, Field.length, id, offsets]

/-- Values that fit are packed, and found again where they are loaded from. -/
theorem load_bytes (fits : header.Fits) (id : header.module_id.length = 32) (after : List Byte) :
    load (header.bytes ++ after) = some header := by
  have read (i : ℕ) (value : ℤ) (place : header.fields[i]? = some (.I value)) :
      word (header.bytes ++ after) (offsets.getD i 0) = value.toNat := by
    have bound : i < 25 := (List.getElem?_eq_some_iff.mp place).1
    rw [← sum_take_fields id bound]
    exact word_flatMap place (fits _ (List.mem_of_getElem? place)) after
  have idPlace : ((header.bytes ++ after).drop 0x40).take 32 = header.module_id := by
    have starts : ((header.fields.take 16).flatMap Field.bytes).length = 0x40 := by
      rw [length_flatMap_bytes, sum_take_fields id (by decide)]
      rfl
    have place : header.fields[16]? = some (.s header.module_id) := rfl
    rw [bytes, flatMap_bytes_eq place, ← starts, List.drop_left, ← id]
    exact List.take_left
  have bss : (0 : ℤ) ≤ header.bss_size := (fits (.I header.bss_size) (by simp [fields])).1
  rw [load, if_neg (by rw [List.length_append, length_bytes id]; omega)]
  exact congrArg some (NroHeader.ext (read 0 _ rfl) (read 1 _ rfl) (read 2 _ rfl) (read 4 _ rfl)
    (read 5 _ rfl) (read 6 _ rfl) (read 7 _ rfl) (NroSegment.ext (read 8 _ rfl) (read 9 _ rfl))
    (NroSegment.ext (read 10 _ rfl) (read 11 _ rfl))
    (NroSegment.ext (read 12 _ rfl) (read 13 _ rfl))
    ((congrArg Nat.cast (read 14 _ rfl)).trans (Int.toNat_of_nonneg bss)) idPlace (read 17 _ rfl)
    (NroSegment.ext (read 19 _ rfl) (read 20 _ rfl))
    (NroSegment.ext (read 21 _ rfl) (read 22 _ rfl))
    (NroSegment.ext (read 23 _ rfl) (read 24 _ rfl)))

/-- One of several consecutive parts of a buffer is replaced. -/
theorem splice_flatten {parts : List (List Byte)} {old data : List Byte} {pos : ℕ} (i : ℕ)
    (place : parts[i]? = some old) (same : old.length = data.length)
    (starts : ((parts.take i).map List.length).sum = pos) :
    splice parts.flatten pos data = (parts.set i data).flatten := by
  obtain ⟨bound, here⟩ := List.getElem?_eq_some_iff.mp place
  have whole : parts.flatten = (parts.take i).flatten ++ (old ++ (parts.drop (i + 1)).flatten) := by
    rw [← here, ← List.flatten_cons, ← List.drop_eq_getElem_cons bound, ← List.flatten_append,
      List.take_append_drop]
  have width : (parts.take i).flatten.length = pos := by rw [List.length_flatten, starts]
  rw [whole, splice, ← width, ← same, List.take_left, ← List.drop_drop, List.drop_left,
    List.drop_left, List.set_eq_take_append_cons_drop, if_pos bound, List.flatten_append,
    List.flatten_cons, List.append_assoc]

/-- The fields before the three segments, and those between them and the other three. -/
def front (header : NroHeader) : List Field :=
  [.I header.branch, .I header.mod0_offset, .I header.version_offset, .x 4, .I header.magic,
    .I header.version, .I header.file_size, .I header.flags]

def middle (header : NroHeader) : List Field :=
  [.I header.bss_size, .x 4, .s header.module_id, .I header.dso_handle_offset, .x 4]

theorem length_segment (segment : NroSegment) :
    (segment.fields.flatMap Field.bytes).length = 8 := by
  rw [length_flatMap_bytes]
  rfl

/-- The format of a header, whose segments are filled in afterwards. -/
def format (header : NroHeader) : List Field :=
  header.front ++ [.x 24] ++ (header.middle ++ [.x 24])

theorem fields_eq (header : NroHeader) : header.fields = header.front ++
    (header.text_segment.fields ++ header.rodata_segment.fields ++ header.data_segment.fields) ++
    header.middle ++ (header.embedded_segment.fields ++ header.dynstr_segment.fields ++
      header.dynsym_segment.fields) := rfl

theorem fits_iff (header : NroHeader) : header.Fits ↔ (∀ field ∈ header.format, field.Fits) ∧
    ∀ segment ∈ [header.text_segment, header.rodata_segment, header.data_segment,
      header.embedded_segment, header.dynstr_segment, header.dynsym_segment],
        ∀ field ∈ segment.fields, field.Fits := by
  have pad : (Field.x 24).Fits := trivial
  simp only [Fits, fields_eq, format, List.forall_mem_append, List.forall_mem_cons, pad]
  tauto

theorem format_bytes (header : NroHeader) : ∃ gap : List Byte, gap.length = 8 ∧
    header.format.flatMap Field.bytes = [header.front.flatMap Field.bytes, gap, gap, gap,
      header.middle.flatMap Field.bytes, gap, gap, gap].flatten := by
  refine ⟨List.replicate 8 0, List.length_replicate, ?_⟩
  have gaps : ([.x 24] : List Field).flatMap Field.bytes =
      List.replicate 8 0 ++ (List.replicate 8 0 ++ List.replicate 8 0) := rfl
  rw [format, List.flatMap_append, List.flatMap_append, List.flatMap_append, gaps]
  simp only [List.flatten_cons, List.flatten_nil, List.append_nil, List.append_assoc]

/-- The segments end up in the gaps of the format. -/
theorem splices_eq (id : header.module_id.length = 32) :
    let saved (segment : NroSegment) := segment.fields.flatMap Field.bytes
    splice (splice (splice (splice (splice (splice (header.format.flatMap Field.bytes)
      0x20 (saved header.text_segment)) 0x28 (saved header.rodata_segment))
      0x30 (saved header.data_segment)) 0x68 (saved header.embedded_segment))
      0x70 (saved header.dynstr_segment)) 0x78 (saved header.dynsym_segment) = header.bytes := by
  intro saved
  obtain ⟨gap, eight, parts⟩ := header.format_bytes
  have length (segment : NroSegment) : (saved segment).length = 8 := length_segment segment
  have frontLength : (header.front.flatMap Field.bytes).length = 0x20 := by
    rw [length_flatMap_bytes]
    rfl
  have middleLength : (header.middle.flatMap Field.bytes).length = 0x30 := by
    rw [length_flatMap_bytes]
    simp [middle, Field.length, id]
  have whole : header.bytes = [header.front.flatMap Field.bytes, saved header.text_segment,
      saved header.rodata_segment, saved header.data_segment, header.middle.flatMap Field.bytes,
      saved header.embedded_segment, saved header.dynstr_segment,
      saved header.dynsym_segment].flatten := by
    rw [bytes, fields_eq]
    simp only [List.flatMap_append, List.flatten_cons, List.flatten_nil, List.append_nil,
      List.append_assoc, saved]
  have texts := length header.text_segment
  have rodatas := length header.rodata_segment
  have datas := length header.data_segment
  have embeddeds := length header.embedded_segment
  have dynstrs := length header.dynstr_segment
  have dynsyms := length header.dynsym_segment
  rw [whole, parts]
  generalize header.front.flatMap Field.bytes = first at *
  generalize header.middle.flatMap Field.bytes = second at *
  generalize saved header.text_segment = text at *
  generalize saved header.rodata_segment = rodata at *
  generalize saved header.data_segment = data at *
  generalize saved header.embedded_segment = embedded at *
  generalize saved header.dynstr_segment = dynstr at *
  generalize saved header.dynsym_segment = dynsym at *
  rw [splice_flatten 1 rfl (eight.trans texts.symm) (by simp [frontLength]),
    splice_flatten 2 rfl (eight.trans rodatas.symm) (by simp [frontLength, texts]),
    splice_flatten 3 rfl (eight.trans datas.symm) (by simp [frontLength, texts, rodatas]),
    splice_flatten 5 rfl (eight.trans embeddeds.symm)
      (by simp [frontLength, texts, rodatas, datas, middleLength]),
    splice_flatten 6 rfl (eight.trans dynstrs.symm)
      (by simp [frontLength, texts, rodatas, datas, middleLength, embeddeds]),
    splice_flatten 7 rfl (eight.trans dynsyms.symm)
      (by simp [frontLength, texts, rodatas, datas, middleLength, embeddeds, dynstrs])]
  rfl

theorem save_eq_some_iff (id : header.module_id.length = 32) {out : List Byte} :
    header.save = some out ↔ header.Fits ∧ header.bytes = out := by
  have packed : structPack
    [.I header.branch, .I header.mod0_offset, .I header.version_offset, .x 4,
      .I header.magic, .I header.version, .I header.file_size, .I header.flags, .x 24,
      .I header.bss_size, .x 4, .s header.module_id, .I header.dso_handle_offset, .x 4, .x 24] =
      if ∀ field ∈ header.format, field.Fits then some (header.format.flatMap Field.bytes)
      else none := structPack_eq header.format
  have saved (segment : NroSegment) : segment.save =
      if ∀ field ∈ segment.fields, field.Fits then some (segment.fields.flatMap Field.bytes)
      else none := structPack_eq segment.fields
  rw [NroHeader.save, packed]
  simp only [saved, Option.bind_eq_bind, Option.bind_eq_some_iff, Option.ite_none_right_eq_some,
    Option.some.injEq]
  constructor
  · rintro ⟨_, ⟨base, rfl⟩, _, ⟨text, rfl⟩, _, ⟨rodata, rfl⟩, _, ⟨data, rfl⟩, _, ⟨embedded, rfl⟩, _,
      ⟨dynstr, rfl⟩, _, ⟨dynsym, rfl⟩, rfl⟩
    refine ⟨header.fits_iff.mpr ⟨base, ?_⟩, (splices_eq id).symm⟩
    simp only [List.forall_mem_cons]
    exact ⟨text, rodata, data, embedded, dynstr, dynsym, nofun⟩
  · rintro ⟨fits, rfl⟩
    obtain ⟨base, segments⟩ := header.fits_iff.mp fits
    simp only [List.forall_mem_cons] at segments
    obtain ⟨text, rodata, data, embedded, dynstr, dynsym, -⟩ := segments
    exact ⟨_, ⟨base, rfl⟩, _, ⟨text, rfl⟩, _, ⟨rodata, rfl⟩, _, ⟨data, rfl⟩, _, ⟨embedded, rfl⟩, _,
      ⟨dynstr, rfl⟩, _, ⟨dynsym, rfl⟩, splices_eq id⟩

end NroHeader

end Header

section Files

/-- A file that is written at its end. -/
theorem OutFile.write_end {bytes : List Byte} {position : ℕ} (at_end : position = bytes.length)
    (data : List Byte) : OutFile.write { bytes := bytes, position := position } data =
      { bytes := bytes ++ data, position := position + data.length } := by
  rw [OutFile.write]
  split_ifs with empty
  · rw [empty, List.append_nil]
    rfl
  · subst at_end
    simp [splice]

/-- What is written first, behind room for the header. -/
theorem OutFile.write_first (room : ℕ) (data : List Byte) {zeros : List Byte}
    (written : zeros ≠ []) : ((OutFile.seek {} room).write data).write zeros =
      { bytes := List.replicate room 0 ++ data ++ zeros
        position := room + data.length + zeros.length } := by
  have first : ∀ {bytes : List Byte}, bytes ≠ [] → (OutFile.seek {} room).write bytes =
      { bytes := List.replicate room 0 ++ bytes, position := room + bytes.length } := by
    intro bytes some_
    rw [OutFile.write, if_neg some_]
    simp [OutFile.seek, splice]
  by_cases empty : data = []
  · subst empty
    have unchanged : (OutFile.seek {} room).write [] = OutFile.seek {} room := if_pos rfl
    rw [unchanged, first written, List.append_nil]
    rfl
  · rw [first empty, OutFile.write_end (by simp)]

theorem OutFile.write_start {out : OutFile} {data : List Byte} (some_ : data ≠ []) :
    ((out.seek 0).write data).bytes = data ++ out.bytes.drop data.length := by
  rw [OutFile.write, if_neg some_]
  simp [OutFile.seek, splice]

theorem Elf.read_nat (elf : Elf) (offset size : ℕ) :
    elf.read offset size = (elf.stream.drop offset).take size := by
  rw [Elf.read, if_neg (by omega), Int.toNat_natCast]

theorem pageAlign_spec (size : ℕ) :
    size ≤ pageAlign size ∧ pageAlign size < size + 0x1000 ∧ pageAlign size % 0x1000 = 0 := by
  rw [pageAlign]
  omega

end Files

/-- An ELF with three segments page after page, which its stream has, and room for the header. -/
structure Laid (elf : Elf) (text rodata data : Segment) : Prop where
  arch : elf.machineArch ≠ .other
  segments : elf.segments.filter (·.isLoad) = [text, rodata, data]
  stored : ∀ segment ∈ [text, rodata, data],
    segment.p_offset + segment.p_filesz ≤ elf.stream.length ∧ segment.p_filesz ≤ segment.p_memsz
  room : NroHeader.size ≤ text.p_filesz
  textAddress : text.p_vaddr = 0
  rodataAddress : rodata.p_vaddr = pageAlign (text.p_vaddr + text.p_filesz)
  dataAddress : data.p_vaddr = pageAlign (rodata.p_vaddr + rodata.p_filesz)

/-- The bytes of a segment from some offset on, and zeros up to a size. -/
def contents (elf : Elf) (segment : Segment) (skipped size : ℕ) : List Byte :=
  (elf.stream.drop (segment.p_offset + skipped)).take (segment.p_filesz - skipped) ++
    List.replicate (size - segment.p_filesz) 0

/-- The announced size of the text. -/
def textSize (text : Segment) : ℕ := pageAlign (text.p_filesz + NroHeader.size)

theorem le_textSize (text : Segment) : text.p_filesz + NroHeader.size ≤ textSize text := by
  rw [textSize]
  exact (pageAlign_spec _).1

/-- The announced sizes together. -/
def fileSize (text rodata data : Segment) : ℕ :=
  textSize text + pageAlign rodata.p_filesz + pageAlign data.p_filesz

/-- The header that is saved. -/
def announce (loaded : NroHeader) (text rodata data : Segment) : NroHeader :=
  { loaded with
    text_segment := ⟨0, textSize text⟩
    rodata_segment := ⟨textSize text, pageAlign rodata.p_filesz⟩
    data_segment := ⟨textSize text + pageAlign rodata.p_filesz, pageAlign data.p_filesz⟩
    bss_size := data.p_memsz - data.p_filesz
    file_size := fileSize text rodata data }

section Convert

variable (laid : Laid elf text rodata data)

include laid

theorem Laid.length_contents {segment : Segment} (member : segment ∈ [text, rodata, data])
    {skipped size : ℕ} (below : skipped ≤ segment.p_filesz) (fits : segment.p_filesz ≤ size) :
    (contents elf segment skipped size).length = size - skipped := by
  have := (laid.stored segment member).1
  rw [contents, List.length_append, List.length_take, List.length_drop, List.length_replicate]
  omega

/-- The header of the text, as it is loaded. -/
theorem Laid.loaded : ∃ loaded,
    NroHeader.load (elf.read text.p_offset NroHeader.size) = some loaded ∧
      loaded.module_id.length = 32 := by
  have stored := (laid.stored text (by simp)).1
  have room := laid.room
  have length : (elf.read text.p_offset NroHeader.size).length = 0x80 := by
    rw [elf.read_nat, List.length_take, List.length_drop, NroHeader.size]
    rw [NroHeader.size] at room
    omega
  refine ⟨_, if_neg ?_, ?_⟩
  · rw [length, NroHeader.size]
    omega
  · simp [length]

theorem Laid.writeSegment_text : (OutFile.seek {} NroHeader.size).writeSegment elf
    (text.p_offset + NroHeader.size) (text.p_filesz - NroHeader.size) (textSize text)
      text.p_filesz = {
    bytes := List.replicate NroHeader.size 0 ++ contents elf text NroHeader.size (textSize text)
    position := textSize text } := by
  have room := laid.room
  have above := le_textSize text
  have positive : 0 < NroHeader.size := by decide
  have zeros : List.replicate (textSize text - text.p_filesz) (0 : Byte) ≠ [] := by
    rw [ne_eq, List.replicate_eq_nil_iff]
    omega
  have length := laid.length_contents (List.mem_cons_self ..) room
    (Nat.le_trans (Nat.le_add_right _ _) above)
  rw [contents, List.length_append] at length
  rw [OutFile.writeSegment, OutFile.write_first _ _ zeros, ← Int.ofNat_sub room, Elf.read_nat,
    contents, List.append_assoc, Nat.add_assoc, length, Nat.add_sub_of_le (by omega)]

theorem Laid.writeSegment {bytes : List Byte} {position : ℕ} (at_end : position = bytes.length)
    {segment : Segment} (member : segment ∈ [text, rodata, data]) :
    OutFile.writeSegment { bytes := bytes, position := position } elf segment.p_offset
        segment.p_filesz (pageAlign segment.p_filesz) segment.p_filesz = {
      bytes := bytes ++ contents elf segment 0 (pageAlign segment.p_filesz)
      position := position + pageAlign segment.p_filesz } := by
  have length := laid.length_contents member (Nat.zero_le _) (pageAlign_spec segment.p_filesz).1
  rw [contents, List.length_append, Nat.sub_zero, Nat.sub_zero, Nat.add_zero] at length
  rw [OutFile.writeSegment, OutFile.write_end at_end, OutFile.write_end (by simp [at_end]),
    Elf.read_nat, contents, List.append_assoc, Nat.add_zero, Nat.sub_zero, Nat.add_assoc, length]

/-- The file: the header, and the contents of the segments behind its room. -/
theorem Laid.convert_eq {loaded : NroHeader}
    (load : NroHeader.load (elf.read text.p_offset NroHeader.size) = some loaded)
    (id : loaded.module_id.length = 32) (is_homebrew : Bool) :
    convert elf is_homebrew = match (announce loaded text rodata data).save with
      | none => .error .structError
      | some saved => .ok (saved ++ (contents elf text NroHeader.size (textSize text) ++
          contents elf rodata 0 (pageAlign rodata.p_filesz) ++
            contents elf data 0 (pageAlign data.p_filesz) ++
              if is_homebrew then assetHeader else [])) := by
  have room := laid.room
  have above := le_textSize text
  have enough : text.p_filesz ≤ textSize text := by omega
  have textLength : (contents elf text NroHeader.size (textSize text)).length =
      textSize text - NroHeader.size := laid.length_contents (by simp) room enough
  have textEnd : textSize text = (List.replicate NroHeader.size (0 : Byte) ++
      contents elf text NroHeader.size (textSize text)).length := by
    rw [List.length_append, List.length_replicate, textLength]
    omega
  set first := List.replicate NroHeader.size (0 : Byte) ++
    contents elf text NroHeader.size (textSize text) with first_eq
  have second := laid.writeSegment textEnd (show rodata ∈ [text, rodata, data] by simp)
  have secondEnd : textSize text + pageAlign rodata.p_filesz =
      (first ++ contents elf rodata 0 (pageAlign rodata.p_filesz)).length := by
    rw [List.length_append, ← textEnd, laid.length_contents (by simp) (Nat.zero_le _)
      (pageAlign_spec rodata.p_filesz).1, Nat.sub_zero]
  have third := laid.writeSegment secondEnd (show data ∈ [text, rodata, data] by simp)
  have thirdEnd : fileSize text rodata data = (first ++
      contents elf rodata 0 (pageAlign rodata.p_filesz) ++
        contents elf data 0 (pageAlign data.p_filesz)).length := by
    rw [List.length_append, ← secondEnd, laid.length_contents (by simp) (Nat.zero_le _)
      (pageAlign_spec data.p_filesz).1, Nat.sub_zero, fileSize]
  have runs : convert elf is_homebrew = loaded.write elf text rodata data is_homebrew := by
    rw [convert, if_neg laid.arch, laid.segments]
    simp only [load]
  rw [runs, NroHeader.write]
  have start : (OutFile.seek {} NroHeader.size).position - NroHeader.size = 0 := Nat.sub_self _
  rw [← textSize, laid.writeSegment_text, second, third, ← fileSize, start]
  simp only [announce]
  generalize saves : NroHeader.save _ = result
  cases result with
  | none => rfl
  | some saved =>
    have length : saved.length = NroHeader.size := by
      rw [NroHeader.save_eq_some_iff] at saves
      · rw [← saves.2]
        exact NroHeader.length_bytes id
      · exact id
    have written : saved ≠ [] := List.ne_nil_of_length_pos (by rw [length]; decide)
    have behind (rest : List Byte) :
        (List.replicate NroHeader.size (0 : Byte) ++ rest).drop saved.length = rest := by
      rw [length]
      exact List.drop_left' List.length_replicate
    simp only
    rw [OutFile.write_start written]
    cases is_homebrew with
    | false =>
      rw [if_neg Bool.false_ne_true, if_neg Bool.false_ne_true, first_eq]
      simp only [List.append_assoc, behind, List.append_nil]
    | true =>
      rw [if_pos rfl, if_pos rfl, OutFile.write_end thirdEnd, first_eq]
      simp only [List.append_assoc, behind]

end Convert

section Announced

/-- The values of a header that have to fit. -/
theorem NroHeader.fits_words (header : NroHeader) : header.Fits ↔
    (∀ value ∈ [header.branch, header.mod0_offset, header.version_offset, header.magic,
      header.version, header.flags, header.dso_handle_offset], value < 2 ^ 32) ∧
    (∀ segment ∈ [header.text_segment, header.rodata_segment, header.data_segment,
      header.embedded_segment, header.dynstr_segment, header.dynsym_segment],
        segment.offset < 2 ^ 32 ∧ segment.segment_size < 2 ^ 32) ∧
    header.file_size < 2 ^ 32 ∧ 0 ≤ header.bss_size ∧ header.bss_size.toNat < 2 ^ 32 := by
  simp only [NroHeader.Fits, NroHeader.fields, NroSegment.fields, List.cons_append,
    List.nil_append, List.forall_mem_cons, Field.Fits, Int.natCast_nonneg, Int.toNat_natCast,
    true_and]
  tauto

/-- What was loaded can be saved. -/
theorem NroHeader.fits_of_load {bytes : List Byte} {header : NroHeader}
    (load : NroHeader.load bytes = some header) : header.Fits := by
  rw [NroHeader.load] at load
  split_ifs at load
  obtain rfl := Option.some.inj load
  have small (pos : ℕ) : word bytes pos < 2 ^ 32 := word_lt bytes pos
  rw [NroHeader.fits_words]
  simp only [List.forall_mem_cons, NroSegment.load, small, Int.natCast_nonneg, Int.toNat_natCast,
    and_true, true_and]
  exact ⟨nofun, nofun⟩

theorem announce_fits_iff {loaded : NroHeader} (fits : loaded.Fits)
    (memory : data.p_filesz ≤ data.p_memsz) : (announce loaded text rodata data).Fits ↔
      fileSize text rodata data < 2 ^ 32 ∧ data.p_memsz - data.p_filesz < 2 ^ 32 := by
  rw [NroHeader.fits_words] at fits ⊢
  simp only [List.forall_mem_cons, announce] at fits ⊢
  obtain ⟨values, ⟨-, -, -, others⟩, -⟩ := fits
  constructor
  · rintro ⟨-, -, file, -, bss⟩
    exact ⟨file, by omega⟩
  · rintro ⟨file, bss⟩
    have sum : fileSize text rodata data =
      textSize text + pageAlign rodata.p_filesz + pageAlign data.p_filesz := rfl
    exact ⟨values, ⟨⟨by omega, by omega⟩, ⟨by omega, by omega⟩, ⟨by omega, by omega⟩, others⟩, file,
      by omega, by omega⟩

end Announced

/-- Where a segment is announced: at its address, with its bytes from some offset on, and zeros up
to whole pages. -/
structure Placed (elf : Elf) (segment : Segment) (announced : NroSegment) (skipped : ℕ)
    (out : List Byte) : Prop where
  offset : announced.offset = segment.p_vaddr
  aligned : announced.segment_size % 0x1000 = 0
  fits : segment.p_filesz ≤ announced.segment_size
  bytes : ∀ k, skipped ≤ k → k < segment.p_filesz →
    out[announced.offset + k]? = elf.stream[segment.p_offset + k]?
  zeros : ∀ k, segment.p_filesz ≤ k → k < announced.segment_size →
    out[announced.offset + k]? = some 0

/-- The layout that the header announces. -/
structure Layout (elf : Elf) (text rodata data : Segment) (is_homebrew : Bool) (out : List Byte)
    (header : NroHeader) : Prop where
  text : Placed elf text header.text_segment NroHeader.size out
  rodata : Placed elf rodata header.rodata_segment 0 out
  data : Placed elf data header.data_segment 0 out
  apart : header.text_segment.offset + header.text_segment.segment_size ≤
      header.rodata_segment.offset ∧
    header.rodata_segment.offset + header.rodata_segment.segment_size ≤ header.data_segment.offset
  total : header.text_segment.segment_size + header.rodata_segment.segment_size +
    header.data_segment.segment_size = header.file_size
  length : out.length = header.file_size + if is_homebrew then assetHeader.length else 0

/-- The file that is written has the header that is loaded from it, and is laid out like that. -/
def Converts (elf : Elf) (text rodata data : Segment) (is_homebrew : Bool) : Prop :=
  ∃ out header, convert elf is_homebrew = .ok out ∧ NroHeader.load out = some header ∧
    Layout elf text rodata data is_homebrew out header

/-- Contents in the middle of a file. -/
theorem placed_of_eq {segment : Segment} {announced : NroSegment} {skipped : ℕ}
    {out : List Byte} (before behind : List Byte)
    (eq : out = before ++ (contents elf segment skipped announced.segment_size ++ behind))
    (start : before.length = announced.offset + skipped)
    (stored : segment.p_offset + segment.p_filesz ≤ elf.stream.length)
    (below : skipped ≤ segment.p_filesz)
    (offset : announced.offset = segment.p_vaddr) (aligned : announced.segment_size % 0x1000 = 0)
    (fits : segment.p_filesz ≤ announced.segment_size) :
    Placed elf segment announced skipped out := by
  have place (j : ℕ) : out[announced.offset + skipped + j]? =
      (contents elf segment skipped announced.segment_size ++ behind)[j]? := by
    rw [eq, List.getElem?_append_right (by omega), start]
    congr 1
    omega
  have width : ((elf.stream.drop (segment.p_offset + skipped)).take
      (segment.p_filesz - skipped)).length = segment.p_filesz - skipped := by
    rw [List.length_take, List.length_drop]
    omega
  refine ⟨offset, aligned, fits, fun k late inside => ?_, fun k late inside => ?_⟩
  · obtain ⟨j, rfl⟩ := Nat.exists_eq_add_of_le late
    rw [← Nat.add_assoc, place, contents, List.append_assoc,
      List.getElem?_append_left (by omega), List.getElem?_take_of_lt (by omega),
      List.getElem?_drop, Nat.add_assoc]
  · obtain ⟨j, rfl⟩ := Nat.exists_eq_add_of_le (Nat.le_trans below late)
    rw [← Nat.add_assoc, place, contents, List.append_assoc,
      List.getElem?_append_right (by omega), List.getElem?_append_left (by simp; omega), width]
    exact List.getElem?_replicate_of_lt (by omega)

section Main

variable (laid : Laid elf text rodata data) {is_homebrew : Bool}

include laid

/-- What is written where the text is announced without another page. -/
theorem Laid.layout {loaded : NroHeader} (id : loaded.module_id.length = 32)
    (near : textSize text = pageAlign text.p_filesz) :
    Layout elf text rodata data is_homebrew ((announce loaded text rodata data).bytes ++
      (contents elf text NroHeader.size (textSize text) ++
        contents elf rodata 0 (pageAlign rodata.p_filesz) ++
          contents elf data 0 (pageAlign data.p_filesz) ++
            if is_homebrew then assetHeader else [])) (announce loaded text rodata data) := by
  have room := laid.room
  have above := le_textSize text
  have id' : (announce loaded text rodata data).module_id.length = 32 := id
  have savedLength := NroHeader.length_bytes id'
  have textLength : (contents elf text NroHeader.size (textSize text)).length =
      textSize text - NroHeader.size := laid.length_contents (by simp) room (by omega)
  obtain ⟨rodataFits, -, rodataPages⟩ := pageAlign_spec rodata.p_filesz
  obtain ⟨dataFits, -, dataPages⟩ := pageAlign_spec data.p_filesz
  have rodataLength : (contents elf rodata 0 (pageAlign rodata.p_filesz)).length =
      pageAlign rodata.p_filesz - 0 := laid.length_contents (by simp) (Nat.zero_le _) rodataFits
  have dataLength : (contents elf data 0 (pageAlign data.p_filesz)).length =
      pageAlign data.p_filesz - 0 := laid.length_contents (by simp) (Nat.zero_le _) dataFits
  have textPages : textSize text % 0x1000 = 0 := (pageAlign_spec _).2.2
  have rodataAddress : textSize text = rodata.p_vaddr := by
    rw [laid.rodataAddress, laid.textAddress, Nat.zero_add, near]
  have dataAddress : textSize text + pageAlign rodata.p_filesz = data.p_vaddr := by
    rw [laid.dataAddress, ← rodataAddress, pageAlign, pageAlign]
    omega
  have behindLength : (if is_homebrew then assetHeader else []).length =
      if is_homebrew then assetHeader.length else 0 := by
    split_ifs <;> rfl
  generalize (announce loaded text rodata data).bytes = saved at savedLength
  set texts := contents elf text NroHeader.size (textSize text) with texts_eq
  set rodatas := contents elf rodata 0 (pageAlign rodata.p_filesz) with rodatas_eq
  set datas := contents elf data 0 (pageAlign data.p_filesz) with datas_eq
  generalize (if is_homebrew then assetHeader else []) = behind at behindLength
  have textFits : text.p_filesz ≤ textSize text := by omega
  refine ⟨?text, ?rodata, ?data, ⟨Nat.le_of_eq (Nat.zero_add _), Nat.le_refl _⟩, rfl, ?length⟩
  case text =>
    refine placed_of_eq saved (rodatas ++ datas ++ behind) ?_ ?_ (laid.stored text (by simp)).1 room
      laid.textAddress.symm textPages textFits
    · simp only [List.append_assoc]
      rfl
    · rw [savedLength]
      exact (Nat.zero_add _).symm
  case rodata =>
    refine placed_of_eq (saved ++ texts) (datas ++ behind) ?_ ?_ (laid.stored rodata (by simp)).1
      (Nat.zero_le _) rodataAddress rodataPages rodataFits
    · simp only [List.append_assoc]
      rfl
    · rw [List.length_append, savedLength, textLength]
      show _ = textSize text + 0
      omega
  case data =>
    refine placed_of_eq (saved ++ texts ++ rodatas) behind ?_ ?_ (laid.stored data (by simp)).1
      (Nat.zero_le _) dataAddress dataPages dataFits
    · simp only [List.append_assoc]
      rfl
    · rw [List.length_append, List.length_append, savedLength, textLength, rodataLength]
      show _ = textSize text + pageAlign rodata.p_filesz + 0
      omega
  case length =>
    have total : (announce loaded text rodata data).file_size =
      textSize text + pageAlign rodata.p_filesz + pageAlign data.p_filesz := rfl
    simp only [List.length_append, savedLength, textLength, rodataLength, dataLength, behindLength,
      total]
    omega

/-- The header that is found in a file that was written. -/
theorem Laid.announced_of_converts (converts : Converts elf text rodata data is_homebrew) :
    ∃ loaded : NroHeader, (announce loaded text rodata data).Fits ∧
      NroHeader.load (elf.read text.p_offset NroHeader.size) = some loaded ∧
      textSize text = rodata.p_vaddr := by
  obtain ⟨loaded, load, id⟩ := laid.loaded
  have id' : (announce loaded text rodata data).module_id.length = 32 := id
  obtain ⟨out, header, ran, read, layout⟩ := converts
  rw [laid.convert_eq load id] at ran
  cases save : (announce loaded text rodata data).save with
  | none =>
    rw [save] at ran
    cases ran
  | some saved =>
    rw [save] at ran
    obtain ⟨holds, rfl⟩ := (NroHeader.save_eq_some_iff id').mp save
    obtain rfl := Except.ok.inj ran
    rw [NroHeader.load_bytes holds id'] at read
    obtain rfl := Option.some.inj read
    exact ⟨loaded, holds, load, layout.rodata.offset⟩

/-- The file is laid out as the ELF is exactly where the room for the header does not take the text
to another page, and the sizes fit the header. -/
theorem converts_iff (is_homebrew : Bool) : Converts elf text rodata data is_homebrew ↔
    (1 ≤ text.p_filesz % 0x1000 ∧ text.p_filesz % 0x1000 ≤ 0x1000 - NroHeader.size) ∧
      pageAlign text.p_filesz + pageAlign rodata.p_filesz + pageAlign data.p_filesz < 2 ^ 32 ∧
      data.p_memsz - data.p_filesz < 2 ^ 32 := by
  have near : textSize text = pageAlign text.p_filesz ↔ 1 ≤ text.p_filesz % 0x1000 ∧
      text.p_filesz % 0x1000 ≤ 0x1000 - NroHeader.size := by
    rw [textSize, pageAlign, pageAlign, NroHeader.size]
    omega
  have memory := (laid.stored data (by simp)).2
  rw [← near]
  constructor
  · intro converts
    obtain ⟨loaded, holds, load, offset⟩ := laid.announced_of_converts converts
    rw [laid.rodataAddress, laid.textAddress, Nat.zero_add] at offset
    obtain ⟨file, bss⟩ := (announce_fits_iff (NroHeader.fits_of_load load) memory).mp holds
    rw [fileSize, offset] at file
    exact ⟨offset, file, bss⟩
  · rintro ⟨same, file, bss⟩
    obtain ⟨loaded, load, id⟩ := laid.loaded
    have id' : (announce loaded text rodata data).module_id.length = 32 := id
    have size : fileSize text rodata data < 2 ^ 32 := by
      rw [fileSize, same]
      exact file
    have holds := (announce_fits_iff (NroHeader.fits_of_load load) memory).mpr ⟨size, bss⟩
    have save := (NroHeader.save_eq_some_iff id').mpr ⟨holds, rfl⟩
    refine ⟨_, _, ?_, NroHeader.load_bytes holds id' _, laid.layout id same⟩
    rw [laid.convert_eq load id, save]

end Main

section Wholes

/-- Text of some size, with nothing behind it. -/
def wholeText (size : ℕ) : Segment := ⟨true, 0, 0, size, size⟩

def emptyBehind (size : ℕ) : Segment := ⟨true, size, pageAlign size, 0, 0⟩

def textElf (size : ℕ) : Elf :=
  ⟨.AArch64, [wholeText size, emptyBehind size, emptyBehind size], List.replicate size 0⟩

theorem textElf_laid {size : ℕ} (room : NroHeader.size ≤ size) :
    Laid (textElf size) (wholeText size) (emptyBehind size) (emptyBehind size) where
  arch := nofun
  segments := rfl
  stored := by simp [textElf, wholeText, emptyBehind]
  room := room
  textAddress := rfl
  rodataAddress := congrArg pageAlign (Nat.zero_add size).symm
  dataAddress := by
    simp only [emptyBehind, pageAlign]
    omega

theorem converts_small : Converts (textElf 0x100) (wholeText 0x100) (emptyBehind 0x100)
    (emptyBehind 0x100) false :=
  (converts_iff (textElf_laid (by decide)) false).mpr (by decide)

/-- A text of one page is announced with two. -/
theorem not_converts_page : Laid (textElf 0x1000) (wholeText 0x1000) (emptyBehind 0x1000)
      (emptyBehind 0x1000) ∧
    ¬Converts (textElf 0x1000) (wholeText 0x1000) (emptyBehind 0x1000) (emptyBehind 0x1000)
      false := by
  have laid : Laid (textElf 0x1000) (wholeText 0x1000) (emptyBehind 0x1000)
    (emptyBehind 0x1000) := textElf_laid (by decide)
  refine ⟨laid, fun converts => ?_⟩
  obtain ⟨-, -, -, offset⟩ := laid.announced_of_converts converts
  exact absurd offset (by decide)

end Wholes

end Hakkun.Tools.Elf2Nro
