import Hakkun.Math.Layout
import Hakkun.Model.Sf.Utils

/-! # Packed arguments

The size is summed up in 32 bits and the offsets in 64. Where the natural layout is shorter than
2^32 bytes, both folds follow it; where it is not, no size that the first fold gives can be that of
the layout.
-/

namespace Hakkun.Sf

open Machine Math

variable {arguments : List Argument} {types : List ParamType} {packing packing' : Packing}

theorem ParamType.alignment_pos (type : ParamType) : 0 < type.alignment :=
  Nat.pos_of_dvd_of_pos type.multiple type.positive

def ParamType.item (type : ParamType) : Item := ⟨type.size, type.alignment, type.alignment_pos⟩

abbrev Argument.item (argument : Argument) : Item := argument.type.item

/-- The bytes of an argument at an offset. -/
def Argument.Spans (argument : Argument) (offset k : ℕ) : Prop :=
  offset ≤ k ∧ k < offset + argument.type.size

instance (argument : Argument) (offset k : ℕ) : Decidable (argument.Spans offset k) :=
  inferInstanceAs (Decidable (_ ∧ _))

/-- What a packed array is: the arguments at aligned offsets in order and inside, their values,
zeros everywhere else, and no more bytes than that needs. -/
structure Packed (arguments : List Argument) (packing : Packing) : Prop where
  length : packing.array.length = (calcParamsSize (arguments.map Argument.type)).toNat
  written : packing.written.length = arguments.length
  places : Places 0 (arguments.map Argument.item) (packing.written.map BitVec.toNat)
  value : ∀ (i : ℕ) (argument : Argument) (offset : Ptr), arguments[i]? = some argument →
    packing.written[i]? = some offset →
      (packing.array.drop offset.toNat).take argument.type.size = argument.bytes
  padding : ∀ k byte, packing.array[k]? = some byte →
    (∀ (i : ℕ) (argument : Argument) (offset : Ptr), arguments[i]? = some argument →
      packing.written[i]? = some offset → ¬ argument.Spans offset.toNat k) → byte = 0
  total : IsLeast {size | maxAlignment (arguments.map Argument.item) ∣ size ∧
    Covers size (arguments.map Argument.item) (packing.written.map BitVec.toNat)}
      packing.array.length

/-- `packInput` returns such an array. -/
def Packs (arguments : List Argument) : Prop :=
  ∃ packing, packInput arguments = some packing ∧ Packed arguments packing

section Rounding

theorem toNat_alignUp {value : U64} {alignment : ℕ} (power : alignment ∈ [1, 2, 4, 8])
    (bound : value.toNat + 7 < 2 ^ 64) :
    (alignUp value (BitVec.ofNat 64 alignment)).toNat = roundUp alignment value.toNat := by
  have aligned (k : ℕ) (small : k ≤ 3) (mask : BitVec.ofNat 64 alignment - 1 = bits k)
      (same : alignment = 2 ^ k) :
      (alignUp value (BitVec.ofNat 64 alignment)).toNat = roundUp alignment value.toNat := by
    have width : (bits k).toNat = 2 ^ k - 1 := bits_toNat (by omega)
    have below : 2 ^ k ≤ 2 ^ 3 := Nat.pow_le_pow_right (by decide) small
    have sum : (value + bits k).toNat = value.toNat + (2 ^ k - 1) := by
      rw [BitVec.toNat_add, width, Nat.mod_eq_of_lt (by omega)]
    rw [alignUp, mask, and_not_bits_toNat _ (by omega), sum, roundUp, same,
      Nat.div_mul_self_eq_mod_sub_self]
  simp only [List.mem_cons, List.not_mem_nil, or_false] at power
  rcases power with rfl | rfl | rfl | rfl
  · exact aligned 0 (by decide) rfl rfl
  · exact aligned 1 (by decide) rfl rfl
  · exact aligned 2 (by decide) rfl rfl
  · exact aligned 3 (by decide) rfl rfl

theorem ParamType.toNat_alignUp (type : ParamType) {value : U64}
    (bound : value.toNat + 7 < 2 ^ 64) :
    (alignUp value type.alignof).toNat = roundUp type.alignment value.toNat :=
  Sf.toNat_alignUp type.power bound

theorem maxAlignment_power (types : List ParamType) :
    maxAlignment (types.map ParamType.item) ∈ [1, 2, 4, 8] := by
  induction types with
  | nil => decide
  | cons type rest ih =>
    change max type.alignment (maxAlignment (rest.map ParamType.item)) ∈ _
    rcases Nat.le_total type.alignment (maxAlignment (rest.map ParamType.item)) with below | above
    · rwa [Nat.max_eq_right below]
    · rw [Nat.max_eq_left above]
      exact type.power

end Rounding

section Size

theorem wide (value : U32) : (value.setWidth 64).toNat = value.toNat :=
  BitVec.toNat_setWidth_of_le (by decide)

theorem toNat_max32 (first second : U32) :
    (max32 first second).toNat = max first.toNat second.toNat := by
  rw [max32]
  split_ifs with greater
  · exact (Nat.max_eq_left (Nat.le_of_lt greater)).symm
  · exact (Nat.max_eq_right (Nat.le_of_not_lt greater)).symm

/-- The fold at compile time, where the layout is short enough. -/
theorem totalSize_foldl (params : ParamsSize)
    (short : finish params.totalSize.toNat (types.map ParamType.item) < 2 ^ 32) :
    (types.foldl ParamsSize.add params).totalSize.toNat =
      finish params.totalSize.toNat (types.map ParamType.item) := by
  induction types generalizing params with
  | nil => rfl
  | cons type rest ih =>
    set start := roundUp type.alignment params.totalSize.toNat with start_eq
    have short' : finish (start + type.size) (rest.map ParamType.item) < 2 ^ 32 := short
    have last : start + type.size ≤ finish (start + type.size) (rest.map ParamType.item) :=
      le_finish _
    have small := params.totalSize.isLt
    have aligned : ((alignUp (params.totalSize.setWidth 64) type.alignof).setWidth 32).toNat =
        start := by
      rw [BitVec.toNat_setWidth, type.toNat_alignUp (by rw [wide]; omega), wide,
        Nat.mod_eq_of_lt (by omega)]
    have next : (params.add type).totalSize.toNat = start + type.size := by
      rw [ParamsSize.add, BitVec.toNat_setWidth, BitVec.toNat_add, wide, aligned,
        ParamType.sizeof, BitVec.toNat_ofNat, Nat.mod_eq_of_lt type.bound,
        Nat.mod_eq_of_lt (by omega), Nat.mod_eq_of_lt (by omega)]
    rw [List.foldl_cons, ih _ (next.symm ▸ short'), next]
    rfl

theorem maxAlign_foldl (params : ParamsSize) (positive : 0 < params.maxAlign.toNat) :
    (types.foldl ParamsSize.add params).maxAlign.toNat =
      max params.maxAlign.toNat (maxAlignment (types.map ParamType.item)) := by
  induction types generalizing params with
  | nil => exact (Nat.max_eq_left positive).symm
  | cons type rest ih =>
    have small : type.alignment ≤ 8 := by
      have power := type.power
      simp only [List.mem_cons, List.not_mem_nil, or_false] at power
      omega
    have next : (params.add type).maxAlign.toNat = max params.maxAlign.toNat type.alignment := by
      rw [ParamsSize.add, toNat_max32, BitVec.toNat_setWidth, ParamType.alignof,
        BitVec.toNat_ofNat, Nat.mod_eq_of_lt (by omega), Nat.mod_eq_of_lt (by omega)]
    rw [List.foldl_cons, ih _ (by rw [next]; omega), next, Nat.max_assoc]
    rfl

theorem toNat_calcParamsSize (types : List ParamType)
    (short : layoutSize (types.map ParamType.item) < 2 ^ 32) :
    (calcParamsSize types).toNat = layoutSize (types.map ParamType.item) := by
  have last : finish 0 (types.map ParamType.item) ≤ layoutSize (types.map ParamType.item) :=
    le_roundUp maxAlignment_pos
  have total : (types.foldl ParamsSize.add {}).totalSize.toNat =
      finish 0 (types.map ParamType.item) :=
    totalSize_foldl {} (Nat.lt_of_le_of_lt last short)
  have largest : (types.foldl ParamsSize.add {}).maxAlign.setWidth 64 =
      BitVec.ofNat 64 (maxAlignment (types.map ParamType.item)) := by
    rw [← BitVec.ofNat_toNat, maxAlign_foldl {} (by decide)]
    exact congrArg (BitVec.ofNat 64) (Nat.max_eq_right maxAlignment_pos)
  have sum : layoutSize (types.map ParamType.item) =
      roundUp (maxAlignment (types.map ParamType.item)) (finish 0 (types.map ParamType.item)) := rfl
  rw [calcParamsSize, wide, BitVec.toNat_setWidth, largest,
    toNat_alignUp (maxAlignment_power types) (by rw [wide, total]; omega), wide, total, ← sum,
    Nat.mod_eq_of_lt short]

example : calcParamsSize [⟨1, 1, by decide, by decide, by decide, by decide⟩,
    ⟨8, 8, by decide, by decide, by decide, by decide⟩,
    ⟨1, 1, by decide, by decide, by decide, by decide⟩] = 0x18 := by decide

theorem toNat_calcParamsSize_lt (types : List ParamType) :
    (calcParamsSize types).toNat < 2 ^ 32 := by
  rw [calcParamsSize, wide]
  exact BitVec.isLt _

end Size

section Writes

/-- The bytes of an array after the arguments from some position on were written to it. -/
structure Written (arguments : List Argument) (at_ : ℕ) (before after : List (BitVec 8)) :
    Prop where
  length : after.length = before.length
  value : ∀ (i : ℕ) (argument : Argument) (start : ℕ), arguments[i]? = some argument →
    (starts at_ (arguments.map Argument.item))[i]? = some start →
      ∀ j < argument.type.size, after[start + j]? = argument.bytes[j]?
  other : ∀ k, (∀ (i : ℕ) (argument : Argument) (start : ℕ), arguments[i]? = some argument →
    (starts at_ (arguments.map Argument.item))[i]? = some start → ¬ argument.Spans start k) →
      after[k]? = before[k]?

/-- One argument. -/
theorem Packing.add_spec (argument : Argument)
    (fits : roundUp argument.type.alignment packing.offset.toNat + argument.type.size ≤
      packing.array.length) (short : packing.array.length < 2 ^ 32) :
    ∃ packing', packing.add argument = some packing' ∧
      packing'.array.length = packing.array.length ∧
      packing'.offset.toNat =
        roundUp argument.type.alignment packing.offset.toNat + argument.type.size ∧
      packing'.written = packing.written ++
        [BitVec.ofNat 64 (roundUp argument.type.alignment packing.offset.toNat)] ∧
      ∀ k, packing'.array[k]? =
        if argument.Spans (roundUp argument.type.alignment packing.offset.toNat) k then
          argument.bytes[k - roundUp argument.type.alignment packing.offset.toNat]?
        else packing.array[k]? := by
  set start := roundUp argument.type.alignment packing.offset.toNat with start_eq
  have below : packing.offset.toNat ≤ start := le_roundUp argument.type.alignment_pos
  have positive := argument.type.positive
  have offset : (alignUp packing.offset argument.type.alignof).toNat = start :=
    argument.type.toNat_alignUp (by omega)
  have inside : (store packing.array start argument.bytes).isSome :=
    (store_isSome_iff _).mpr fun _ => argument.length ▸ fits
  obtain ⟨array, stored⟩ := Option.isSome_iff_exists.mp inside
  refine ⟨{
    array := array
    offset := alignUp packing.offset argument.type.alignof + argument.type.sizeof
    written := packing.written ++ [alignUp packing.offset argument.type.alignof] }, ?_,
    length_of_store stored, ?_, ?_, fun k => ?_⟩
  · rw [Packing.add, offset, if_pos (by omega), stored]
    rfl
  · rw [BitVec.toNat_add, offset, ParamType.sizeof, BitVec.toNat_ofNat,
      Nat.mod_eq_of_lt argument.type.bound, Nat.mod_eq_of_lt (by omega)]
  · rw [← offset, BitVec.ofNat_toNat, BitVec.setWidth_eq]
  · rw [getElem?_of_store stored, argument.length]
    rfl

variable (arguments) in
/-- All arguments. -/
theorem foldlM_add (packing : Packing)
    (fits : finish packing.offset.toNat (arguments.map Argument.item) ≤ packing.array.length)
    (short : packing.array.length < 2 ^ 32) :
    ∃ packing', arguments.foldlM Packing.add packing = some packing' ∧
      packing'.written = packing.written ++
        (starts packing.offset.toNat (arguments.map Argument.item)).map (BitVec.ofNat 64) ∧
      Written arguments packing.offset.toNat packing.array packing'.array := by
  induction arguments generalizing packing with
  | nil => exact ⟨packing, rfl, by simp [starts], rfl, nofun, fun _ _ => rfl⟩
  | cons argument rest ih =>
    set start := roundUp argument.type.alignment packing.offset.toNat with start_eq
    have fits' : finish (start + argument.type.size) (rest.map Argument.item) ≤
        packing.array.length := fits
    have last : start + argument.type.size ≤
        finish (start + argument.type.size) (rest.map Argument.item) := le_finish _
    obtain ⟨next, added, length, offset, written, bytes⟩ :=
      packing.add_spec argument (Nat.le_trans last fits') short
    obtain ⟨packing', run, written', later⟩ :=
      ih next (by rw [offset, length]; exact fits') (length ▸ short)
    rw [offset, ← start_eq] at written' later
    rw [← start_eq] at written bytes
    -- what is written later starts behind this argument
    have behind {i : ℕ} {position : ℕ}
        (there : (starts (start + argument.type.size) (rest.map Argument.item))[i]? =
          some position) : start + argument.type.size ≤ position :=
      (places_starts _).le there
    refine ⟨packing', ?_, ?_, later.length.trans length,
      fun i other position here there j small => ?_, fun k outside => ?_⟩
    · rw [List.foldlM_cons, added]
      exact run
    · rw [written', written, List.append_assoc]
      rfl
    · cases i with
      | zero =>
        obtain rfl := Option.some.inj here
        obtain rfl : start = position := Option.some.inj there
        rw [later.other _ fun i other position _ there spans => ?_, bytes,
          if_pos ⟨by omega, by omega⟩, Nat.add_sub_cancel_left]
        have := behind there
        have := spans.1
        omega
      | succ i => exact later.value i other position here there j small
    · have unchanged := later.other k fun i other position here there =>
        outside (i + 1) other position here there
      rw [unchanged, bytes, if_neg (outside 0 argument start rfl rfl)]

end Writes

theorem item_types (arguments : List Argument) :
    (arguments.map Argument.type).map ParamType.item = arguments.map Argument.item := by
  rw [List.map_map]
  rfl

theorem layoutSize_lt_of_packs (packs : Packs arguments) :
    layoutSize (arguments.map Argument.item) < 2 ^ 32 := by
  obtain ⟨packing, -, packed⟩ := packs
  have small : packing.array.length < 2 ^ 32 := packed.length ▸ toNat_calcParamsSize_lt _
  obtain ⟨multiple, covers⟩ := packed.total.1
  have ends := packed.places.finish_le (Nat.zero_le _) covers
  exact Nat.lt_of_le_of_lt (roundUp_le maxAlignment_pos multiple ends) small

/-- The offsets of a layout that is short enough. -/
theorem toNat_starts {items : List Item} (short : finish 0 items < 2 ^ 64) :
    ((starts 0 items).map (BitVec.ofNat 64)).map BitVec.toNat = starts 0 items := by
  rw [List.map_map]
  refine (List.map_congr_left fun start member => ?_).trans (List.map_id _)
  obtain ⟨i, inside, rfl⟩ := List.getElem_of_mem member
  have here := List.getElem?_eq_getElem (length_starts 0 ▸ inside : i < items.length)
  have := covers_starts 0 i _ _ here (List.getElem?_eq_getElem inside)
  exact Nat.mod_eq_of_lt (by omega)

/-- What is written along the layout, into an array of zeros, is packed. -/
theorem packed_of_written (short : layoutSize (arguments.map Argument.item) < 2 ^ 32)
    (written : packing.written = (starts 0 (arguments.map Argument.item)).map (BitVec.ofNat 64))
    (bytes : Written arguments 0
      (List.replicate (layoutSize (arguments.map Argument.item)) 0) packing.array) :
    Packed arguments packing := by
  have last : finish 0 (arguments.map Argument.item) ≤ layoutSize (arguments.map Argument.item) :=
    le_roundUp maxAlignment_pos
  have positions : packing.written.map BitVec.toNat = starts 0 (arguments.map Argument.item) := by
    rw [written, toNat_starts (by omega)]
  have size : packing.array.length = layoutSize (arguments.map Argument.item) :=
    bytes.length.trans List.length_replicate
  refine ⟨?_, ?_, positions ▸ places_starts 0, ?_, ?_, ?_⟩
  · rw [size, toNat_calcParamsSize _ (item_types arguments ▸ short), item_types]
  · rw [written, List.length_map, length_starts, List.length_map]
  · intro i argument offset here there
    have start : (starts 0 (arguments.map Argument.item))[i]? = some offset.toNat := by
      rw [← positions, List.getElem?_map, there]
      rfl
    refine List.ext_getElem? fun j => ?_
    rw [List.getElem?_take, List.getElem?_drop]
    split_ifs with inside
    · exact bytes.value i argument _ here start j inside
    · exact (List.getElem?_eq_none (by rw [argument.length]; omega)).symm
  · intro k byte there outside
    have zero := bytes.other k fun i argument start here started spans => by
      rw [← positions, List.getElem?_map, Option.map_eq_some_iff] at started
      obtain ⟨offset, held, rfl⟩ := started
      exact outside i argument offset here held spans
    rw [there] at zero
    exact List.eq_of_mem_replicate (List.mem_of_getElem? zero.symm)
  · rw [positions, size]
    exact isLeast_layoutSize

/-- The array is as described exactly where the natural layout of the arguments takes less than 2^32
bytes. -/
theorem packs_iff (arguments : List Argument) :
    Packs arguments ↔ layoutSize (arguments.map Argument.item) < 2 ^ 32 := by
  refine ⟨layoutSize_lt_of_packs, fun short => ?_⟩
  have size : (calcParamsSize (arguments.map Argument.type)).toNat =
      layoutSize (arguments.map Argument.item) := by
    rw [toNat_calcParamsSize _ (item_types arguments ▸ short), item_types]
  obtain ⟨packing, run, written, bytes⟩ := foldlM_add arguments
    { array := List.replicate (layoutSize (arguments.map Argument.item)) 0 }
    (by rw [List.length_replicate]; exact le_roundUp maxAlignment_pos)
    (by rw [List.length_replicate]; exact short)
  refine ⟨packing, ?_, packed_of_written short written bytes⟩
  rw [packInput, size]
  exact run

/-- A struct of 2^32 bytes: no array of this size is made, and the first access aborts. -/
def hugeArgument : Argument where
  type := ⟨2 ^ 32, 1, by decide, by decide, by decide, by decide⟩
  bytes := List.replicate (2 ^ 32) 0
  length := List.length_replicate

theorem not_packs_huge :
    calcParamsSize [hugeArgument.type] = 0 ∧ packInput [hugeArgument] = none ∧
      ¬ Packs [hugeArgument] := by
  have size : calcParamsSize [hugeArgument.type] = 0 := by decide
  refine ⟨size, ?_, fun packs => ?_⟩
  · rw [packInput, List.map_singleton, size]
    rfl
  · exact absurd (layoutSize_lt_of_packs packs) (by decide)

end Hakkun.Sf
