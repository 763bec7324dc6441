import Hakkun.Model.Sf.Response
import Hakkun.Soundness.Stream

/-! # The extent of replies

The reply to a request is written by another process. Its header announces what it is made of: the
descriptors and a number of data words. The parse subtracts what it has read from that number without
a check, and a hard-coded size is not compared with it at all.
-/

namespace Hakkun.Sf

open Hipc Ro Util

variable {ipcMessageBuffer : U64 → Byte} {isDomain : Bool} {hardcodedDataBytes : U32}

/-! ## The layout of a reply -/

section Layout

variable (ipcMessageBuffer : U64 → Byte) (isDomain : Bool) (hardcodedDataBytes : U32)

def bytesAt (offset : ℕ) : ℕ → Byte := fun i => ipcMessageBuffer (BitVec.ofNat 64 (offset + i))

def header : Header := .ofBytes (bytesAt ipcMessageBuffer 0)

def specialHeader : SpecialHeader := .ofBytes (bytesAt ipcMessageBuffer 8)

def copyHandleCount : ℕ :=
  if (header ipcMessageBuffer).hasSpecialHeader then
    (specialHeader ipcMessageBuffer).copyHandleCount.toNat
  else 0

def moveHandleCount : ℕ :=
  if (header ipcMessageBuffer).hasSpecialHeader then
    (specialHeader ipcMessageBuffer).moveHandleCount.toNat
  else 0

def sendStaticCount : ℕ := (header ipcMessageBuffer).sendStaticCount.toNat

/-- Where the handles start, if there are any. -/
def handlesStart : ℕ :=
  if (header ipcMessageBuffer).hasSpecialHeader then
    if (specialHeader ipcMessageBuffer).sendPid then 20 else 12
  else 8

def staticsStart : ℕ :=
  handlesStart ipcMessageBuffer +
    4 * (copyHandleCount ipcMessageBuffer + moveHandleCount ipcMessageBuffer)

def staticsEnd : ℕ := staticsStart ipcMessageBuffer + 8 * sendStaticCount ipcMessageBuffer

/-- Where the aligned headers start. -/
def headersStart : ℕ := (staticsEnd ipcMessageBuffer + 15) / 16 * 16

def objectCount : U32 :=
  if isDomain then word (bytesAt ipcMessageBuffer (headersStart ipcMessageBuffer)) 0 else 0

def outHeaderStart : ℕ := headersStart ipcMessageBuffer + if isDomain then 16 else 0

def dataStart : ℕ := outHeaderStart ipcMessageBuffer isDomain + 16

def dataWords : ℕ := (header ipcMessageBuffer).dataWords.toNat

/-- The data words without any data: the padding, the headers and the objects. -/
def neededWords : ℕ :=
  8 + if isDomain then 4 + (objectCount ipcMessageBuffer isDomain).toNat else 0

/-- Where the data ends by its size, hard-coded or as it is left of the data words. -/
def dataEnd : ℤ :=
  dataStart ipcMessageBuffer isDomain +
    if hardcodedDataBytes ≠ 0 then (hardcodedDataBytes.toNat : ℤ)
    else 4 * ((dataWords ipcMessageBuffer : ℤ) - neededWords ipcMessageBuffer isDomain)

def objectsEnd : ℤ :=
  dataEnd ipcMessageBuffer isDomain hardcodedDataBytes +
    4 * (objectCount ipcMessageBuffer isDomain).toNat

/-- All that the header announces: the descriptors, those of buffers too, and the data words. -/
def extent : ℕ :=
  staticsEnd ipcMessageBuffer + 12 * ((header ipcMessageBuffer).sendBufferCount.toNat +
    (header ipcMessageBuffer).recvBufferCount.toNat +
    (header ipcMessageBuffer).exchBufferCount.toNat) + 4 * dataWords ipcMessageBuffer

/-- The replies that are not aborted on: no vector is full, and all parts are in the buffer. -/
structure Accepted : Prop where
  copyHandles : copyHandleCount ipcMessageBuffer ≤ 8
  moveHandles : moveHandleCount ipcMessageBuffer ≤ 8
  statics : sendStaticCount ipcMessageBuffer ≤ 8
  objects : (objectCount ipcMessageBuffer isDomain).toNat ≤ 8
  headers : dataStart ipcMessageBuffer isDomain ≤ 0x100
  data : 0 ≤ dataEnd ipcMessageBuffer isDomain hardcodedDataBytes
  rest : objectsEnd ipcMessageBuffer isDomain hardcodedDataBytes ≤ 0x100

/-! ## Confined replies -/

/-- A part of the message buffer that ends in the buffer and in the extent. -/
def Within (access : Access) : Prop :=
  access.start.toNat + access.size.toNat ≤ 0x100 ∧
    access.start.toNat + access.size.toNat ≤ extent ipcMessageBuffer

/-- What a parse that returns promises. -/
structure StaysInside (response : Response) (accessed : List Access) : Prop where
  data : Within ipcMessageBuffer response.data
  reads : ∀ access ∈ accessed, Within ipcMessageBuffer access
  unwrapped : ((dataWordsLeft isDomain (header ipcMessageBuffer).dataWords
    (objectCount ipcMessageBuffer isDomain)).toNat : ℤ) =
      dataWords ipcMessageBuffer - neededWords ipcMessageBuffer isDomain

def Confined : Prop :=
  ∀ response accessed,
    Response.readFromTls ipcMessageBuffer isDomain hardcodedDataBytes = some (response, accessed) →
    StaysInside ipcMessageBuffer isDomain response accessed

/-- The data words cover what the parse takes from them, and a hard-coded size is in the extent. -/
structure Announced : Prop where
  words : neededWords ipcMessageBuffer isDomain ≤ dataWords ipcMessageBuffer
  hardcoded : hardcodedDataBytes ≠ 0 →
    objectsEnd ipcMessageBuffer isDomain hardcodedDataBytes ≤ extent ipcMessageBuffer

end Layout

/-! ## Reads -/

section Reads

variable (ipcMessageBuffer) in
/-- A reader at a place of the message buffer. -/
def readerAt (cursor : ℕ) (accessed : List Access) : Reader :=
  ⟨{ mSize := cTlsBufferSize, mCursor := BitVec.ofNat 64 cursor, buffer := ipcMessageBuffer }, accessed⟩

variable {cursor : ℕ} {accessed : List Access} {reader : Reader}

theorem toNat_ofNat_of_le {value : ℕ} (small : value ≤ 0x1000) :
    (BitVec.ofNat 64 value).toNat = value := by
  rw [BitVec.toNat_ofNat, Nat.mod_eq_of_lt (by omega)]

theorem taken_readerAt (cursor : ℕ) (accessed : List Access) :
    (readerAt ipcMessageBuffer cursor accessed).stream.taken = bytesAt ipcMessageBuffer cursor := by
  funext i
  rw [Stream.taken, bytesAt, BitVec.ofNat_add]
  rfl

theorem sized_readerAt (cursor : ℕ) (accessed : List Access) :
    (readerAt ipcMessageBuffer cursor accessed).stream.mSize ≠ -1 := by
  change cTlsBufferSize ≠ -1
  decide

theorem read_iff (inside : cursor ≤ 0x100) {n : ℕ} (small : n ≤ 0x100) {bytes : ℕ → Byte} :
    (readerAt ipcMessageBuffer cursor accessed).read (BitVec.ofNat 64 n) = some (bytes, reader) ↔
      cursor + n ≤ 0x100 ∧ bytes = bytesAt ipcMessageBuffer cursor ∧
        reader = readerAt ipcMessageBuffer (cursor + n)
          (accessed ++ [⟨BitVec.ofNat 64 cursor, BitVec.ofNat 64 n⟩]) := by
  have passes : (readerAt ipcMessageBuffer cursor accessed).stream.Passes (BitVec.ofNat 64 n) ↔
      cursor + n ≤ 0x100 := by
    rw [Stream.Passes, readerAt, ← BitVec.ofNat_add, BitVec.le_def, toNat_ofNat_of_le (by omega)]
    rfl
  rw [Reader.read, ← passes]
  by_cases fits : (readerAt ipcMessageBuffer cursor accessed).stream.Passes (BitVec.ofNat 64 n)
  · rw [Stream.tryRead_of_passes fits]
    dsimp only [Stream.take]
    rw [taken_readerAt, Option.some.injEq, Prod.mk.injEq]
    simp only [fits, true_and, eq_comm (a := bytesAt ipcMessageBuffer cursor)]
    refine and_congr_right fun _ => ?_
    rw [eq_comm, readerAt, readerAt, BitVec.ofNat_add]
  · rw [Stream.tryRead_of_not_passes (sized_readerAt _ _) fits]
    simp only [fits, false_and, reduceCtorEq]

theorem seek_iff {target : U64} :
    (readerAt ipcMessageBuffer cursor accessed).seek target = some reader ↔
      target.toNat ≤ 0x100 ∧ reader = readerAt ipcMessageBuffer target.toNat accessed := by
  have same : BitVec.ofNat 64 target.toNat = target := by
    rw [BitVec.ofNat_toNat, BitVec.setWidth_eq]
  rw [Reader.seek]
  by_cases fits : target ≤ (readerAt ipcMessageBuffer cursor accessed).stream.mSize
  · rw [Stream.seek_of_le fits]
    dsimp only
    have inside : target.toNat ≤ 0x100 := BitVec.le_def.mp fits
    simp only [Option.some.injEq, inside, true_and]
    rw [eq_comm, readerAt, readerAt, same]
  · rw [Stream.seek_of_not_le (sized_readerAt _ _) fits]
    have outside : ¬ target.toNat ≤ 0x100 := fun inside => fits (BitVec.le_def.mpr inside)
    simp only [outside, false_and, reduceCtorEq]

/-- The parts that elements of a size are read from. -/
def elementAccesses (cursor size : ℕ) : ℕ → List Access
  | 0 => []
  | n + 1 => ⟨BitVec.ofNat 64 cursor, BitVec.ofNat 64 size⟩ :: elementAccesses (cursor + size) size n

/-- The elements that are read. -/
def elementsAt {T : Type} (ipcMessageBuffer : U64 → Byte) (ofBytes : (ℕ → Byte) → T)
    (cursor size : ℕ) : ℕ → List T
  | 0 => []
  | n + 1 => ofBytes (bytesAt ipcMessageBuffer cursor) ::
      elementsAt ipcMessageBuffer ofBytes (cursor + size) size n

theorem add_eq_some {T : Type} {value : T} {vec vec' : FixedVec T 8} :
    vec.add value = some vec' ↔ vec'.elements = vec.elements ++ [value] := by
  rw [FixedVec.add]
  constructor
  · intro added
    split at added
    · exact (Option.some.inj added) ▸ rfl
    · cases added
  · intro longer
    have room : vec.elements.length < 8 := by
      have := vec'.fits
      rw [longer, List.length_append, List.length_singleton] at this
      omega
    rw [dif_pos room]
    cases vec'
    cases longer
    rfl

theorem readEach_iff {T : Type} (ofBytes : (ℕ → Byte) → T) {size : ℕ} (small : size ≤ 0x100) (n : ℕ)
    (inside : cursor ≤ 0x100) {vec vec' : FixedVec T 8} :
    (readerAt ipcMessageBuffer cursor accessed).readEach (BitVec.ofNat 64 size) ofBytes n vec =
        some (vec', reader) ↔
      cursor + size * n ≤ 0x100 ∧
        vec'.elements = vec.elements ++ elementsAt ipcMessageBuffer ofBytes cursor size n ∧
        reader = readerAt ipcMessageBuffer (cursor + size * n)
          (accessed ++ elementAccesses cursor size n) := by
  induction n generalizing cursor accessed vec with
  | zero =>
    simp only [Reader.readEach, elementsAt, elementAccesses, Nat.mul_zero, Nat.add_zero,
      List.append_nil, Option.some.injEq, Prod.mk.injEq, inside, true_and]
    refine and_congr ⟨fun same => same ▸ rfl, fun same => ?_⟩ eq_comm
    cases vec
    cases vec'
    cases same
    rfl
  | succ n ih =>
    have next : cursor + size * (n + 1) = cursor + size + size * n := by ring
    simp only [Reader.readEach, Option.bind_eq_bind, Option.bind_eq_some_iff, Prod.exists,
      read_iff inside small, elementsAt, elementAccesses, next]
    constructor
    · rintro ⟨_, _, ⟨fits, rfl, rfl⟩, vec₁, added, rest⟩
      rw [ih (by omega), add_eq_some.mp added] at rest
      simpa only [List.append_assoc, List.singleton_append] using rest
    · rintro ⟨fits, elements, rfl⟩
      have room : vec.elements.length < 8 := by
        have := vec'.fits
        rw [elements, List.length_append, List.length_cons] at this
        omega
      refine ⟨_, _, ⟨by omega, rfl, rfl⟩, ⟨vec.elements ++ [ofBytes (bytesAt ipcMessageBuffer cursor)],
        by rwa [List.length_append, List.length_singleton]⟩, add_eq_some.mpr rfl, ?_⟩
      rw [ih (by omega)]
      simpa only [List.append_assoc, List.singleton_append, and_true] using And.intro fits elements

end Reads

/-! ## The parse -/

/-- What is read after a special header. -/
def specialReads (ipcMessageBuffer : U64 → Byte) : List Access :=
  if (header ipcMessageBuffer).hasSpecialHeader then
    [⟨8, 4⟩] ++ (if (specialHeader ipcMessageBuffer).sendPid then [⟨12, 8⟩] else []) ++
      elementAccesses (handlesStart ipcMessageBuffer) 4
        (copyHandleCount ipcMessageBuffer + moveHandleCount ipcMessageBuffer)
  else []

theorem elementAccesses_add (cursor size m n : ℕ) :
    elementAccesses cursor size (m + n) =
      elementAccesses cursor size m ++ elementAccesses (cursor + size * m) size n := by
  induction m generalizing cursor with
  | zero => simp only [elementAccesses, Nat.zero_add, Nat.mul_zero, Nat.add_zero, List.nil_append]
  | succ m ih =>
    have next : cursor + size * (m + 1) = cursor + size + size * m := by ring
    rw [Nat.succ_add, elementAccesses, ih, elementAccesses, next, List.cons_append]

/-- The optional pid. -/
theorem readPid_iff {accessed : List Access} {reader : Reader} (sendPid : Bool) {pid : Option U64} :
    readPid sendPid (readerAt ipcMessageBuffer 12 accessed) = some (pid, reader) ↔
      pid = (if sendPid then some (Stream.sizeOfBytes (bytesAt ipcMessageBuffer 12)) else none) ∧
        reader = readerAt ipcMessageBuffer (if sendPid then 20 else 12)
          (accessed ++ if sendPid then [⟨12, 8⟩] else []) := by
  cases sendPid with
  | false =>
    simp only [readPid, Bool.false_eq_true, if_false, Option.some.injEq, Prod.mk.injEq, List.append_nil]
    exact and_congr eq_comm eq_comm
  | true =>
    have eight : (8 : U64) = BitVec.ofNat 64 8 := rfl
    simp only [readPid, if_true, Option.map_eq_some_iff, Prod.exists, Prod.mk.injEq, eight,
      read_iff (show 12 ≤ 0x100 by decide) (show 8 ≤ 0x100 by decide)]
    constructor
    · rintro ⟨_, _, ⟨-, rfl, rfl⟩, rfl, rfl⟩
      exact ⟨rfl, rfl⟩
    · rintro ⟨rfl, rfl⟩
      exact ⟨_, _, ⟨by decide, rfl, rfl⟩, rfl, rfl⟩

section Special

variable (ipcMessageBuffer)

def pidAt : Option U64 :=
  if (header ipcMessageBuffer).hasSpecialHeader ∧ (specialHeader ipcMessageBuffer).sendPid then
    some (Stream.sizeOfBytes (bytesAt ipcMessageBuffer 12))
  else none

def copyHandlesAt : List U32 :=
  elementsAt ipcMessageBuffer (word · 0) (handlesStart ipcMessageBuffer) 4
    (copyHandleCount ipcMessageBuffer)

def moveHandlesAt : List U32 :=
  elementsAt ipcMessageBuffer (word · 0)
    (handlesStart ipcMessageBuffer + 4 * copyHandleCount ipcMessageBuffer) 4
    (moveHandleCount ipcMessageBuffer)

end Special

theorem readSpecial_of_special (special : (header ipcMessageBuffer).hasSpecialHeader = true)
    {accessed : List Access} {reader : Reader} {pid : Option U64}
    {copyHandles moveHandles : FixedVec U32 8} :
    readSpecial true (readerAt ipcMessageBuffer 8 accessed) =
        some (pid, copyHandles, moveHandles, reader) ↔
      staticsStart ipcMessageBuffer ≤ 0x100 ∧ pid = pidAt ipcMessageBuffer ∧
        copyHandles.elements = copyHandlesAt ipcMessageBuffer ∧
        moveHandles.elements = moveHandlesAt ipcMessageBuffer ∧
        reader = readerAt ipcMessageBuffer (staticsStart ipcMessageBuffer)
          (accessed ++ specialReads ipcMessageBuffer) := by
  have four : (4 : U64) = BitVec.ofNat 64 4 := rfl
  have start : handlesStart ipcMessageBuffer =
      if (specialHeader ipcMessageBuffer).sendPid then 20 else 12 := if_pos special
  have small : handlesStart ipcMessageBuffer ≤ 20 := by
    rw [start]
    split <;> decide
  have copies : (specialHeader ipcMessageBuffer).copyHandleCount.toNat =
      copyHandleCount ipcMessageBuffer := (if_pos special).symm
  have moves : (specialHeader ipcMessageBuffer).moveHandleCount.toNat =
      moveHandleCount ipcMessageBuffer := (if_pos special).symm
  have few : copyHandleCount ipcMessageBuffer < 16 := copies ▸ BitVec.isLt _
  have pids : pidAt ipcMessageBuffer = if (specialHeader ipcMessageBuffer).sendPid then
      some (Stream.sizeOfBytes (bytesAt ipcMessageBuffer 12)) else none := by
    simp only [pidAt, special, true_and]
  have stop : handlesStart ipcMessageBuffer + 4 * copyHandleCount ipcMessageBuffer +
      4 * moveHandleCount ipcMessageBuffer = staticsStart ipcMessageBuffer := by
    rw [staticsStart]
    ring
  have reads : specialReads ipcMessageBuffer = [⟨8, 4⟩] ++
      (if (specialHeader ipcMessageBuffer).sendPid then [⟨12, 8⟩] else []) ++
      elementAccesses (handlesStart ipcMessageBuffer) 4
        (copyHandleCount ipcMessageBuffer + moveHandleCount ipcMessageBuffer) := if_pos special
  rw [reads, elementAccesses_add, readSpecial, if_pos rfl]
  simp only [Option.bind_eq_bind, Option.bind_eq_some_iff, Prod.exists, Option.some.injEq,
    Prod.mk.injEq]
  constructor
  · rintro ⟨_, _, first, _, _, second, _, _, third, _, _, fourth, rfl, rfl, rfl, rfl⟩
    rw [four, read_iff (by decide) (by decide)] at first
    obtain ⟨-, rfl, rfl⟩ := first
    obtain ⟨rfl, rfl⟩ := (readPid_iff _).mp second
    rw [← specialHeader, ← start, four, readEach_iff _ (by decide) _ (by omega), copies] at third
    obtain ⟨-, third, rfl⟩ := third
    rw [← specialHeader, four, readEach_iff _ (by decide) _ (by omega), moves, stop] at fourth
    obtain ⟨fits, fourth, rfl⟩ := fourth
    refine ⟨fits, pids.symm, third, fourth, ?_⟩
    simp only [List.append_assoc]
    rfl
  · rintro ⟨fits, rfl, third, fourth, rfl⟩
    have copied (before : List Access) :
        Reader.readEach 4 (word · 0) (specialHeader ipcMessageBuffer).copyHandleCount.toNat
          (readerAt ipcMessageBuffer (if (specialHeader ipcMessageBuffer).sendPid then 20 else 12) before)
          .empty = some (copyHandles, readerAt ipcMessageBuffer (handlesStart ipcMessageBuffer +
            4 * copyHandleCount ipcMessageBuffer) (before ++ elementAccesses
              (handlesStart ipcMessageBuffer) 4 (copyHandleCount ipcMessageBuffer))) := by
      rw [copies, ← start]
      exact (readEach_iff _ (show 4 ≤ 0x100 by decide) _ (by omega)).mpr ⟨by omega, third, rfl⟩
    have moved (before : List Access) :
        Reader.readEach 4 (word · 0) (specialHeader ipcMessageBuffer).moveHandleCount.toNat
          (readerAt ipcMessageBuffer (handlesStart ipcMessageBuffer +
            4 * copyHandleCount ipcMessageBuffer) before) .empty =
          some (moveHandles, readerAt ipcMessageBuffer (staticsStart ipcMessageBuffer)
            (before ++ elementAccesses (handlesStart ipcMessageBuffer +
              4 * copyHandleCount ipcMessageBuffer) 4 (moveHandleCount ipcMessageBuffer))) := by
      rw [moves, ← stop]
      exact (readEach_iff _ (show 4 ≤ 0x100 by decide) _ (by omega)).mpr ⟨by omega, fourth, rfl⟩
    refine ⟨_, _, (read_iff (by decide) (show 4 ≤ 0x100 by decide)).mpr ⟨by decide, rfl, rfl⟩,
      _, _, (readPid_iff _).mpr ⟨rfl, rfl⟩, copyHandles, _, copied _, moveHandles, _, moved _,
      pids.symm, rfl, rfl, ?_⟩
    simp only [List.append_assoc]
    rfl

theorem readSpecial_iff {accessed : List Access} {reader : Reader} {pid : Option U64}
    {copyHandles moveHandles : FixedVec U32 8} :
    readSpecial (header ipcMessageBuffer).hasSpecialHeader (readerAt ipcMessageBuffer 8 accessed) =
        some (pid, copyHandles, moveHandles, reader) ↔
      staticsStart ipcMessageBuffer ≤ 0x100 ∧ pid = pidAt ipcMessageBuffer ∧
        copyHandles.elements = copyHandlesAt ipcMessageBuffer ∧
        moveHandles.elements = moveHandlesAt ipcMessageBuffer ∧
        reader = readerAt ipcMessageBuffer (staticsStart ipcMessageBuffer)
          (accessed ++ specialReads ipcMessageBuffer) := by
  cases special : (header ipcMessageBuffer).hasSpecialHeader with
  | true => exact readSpecial_of_special special
  | false =>
    have none_ : ¬ (header ipcMessageBuffer).hasSpecialHeader = true := by rw [special]; decide
    have eight : staticsStart ipcMessageBuffer = 8 := by
      simp only [staticsStart, handlesStart, copyHandleCount, moveHandleCount, if_neg none_]
    have empty (vec : FixedVec U32 8) : FixedVec.empty = vec ↔ vec.elements = [] := by
      refine ⟨fun same => same ▸ rfl, fun same => ?_⟩
      cases vec
      cases same
      rfl
    simp only [readSpecial, Bool.false_eq_true, if_false, Option.some.injEq, Prod.mk.injEq, eight,
      pidAt, copyHandlesAt, moveHandlesAt, copyHandleCount, moveHandleCount, specialReads, special,
      false_and, elementsAt, List.append_nil, empty, Nat.reduceLeDiff, true_and]
    exact and_congr eq_comm (and_congr_right fun _ => and_congr_right fun _ => eq_comm)

theorem readObjectCount_iff {cursor : ℕ} (inside : cursor ≤ 0x100) {accessed : List Access}
    {reader : Reader} {count : U32} :
    readObjectCount isDomain (readerAt ipcMessageBuffer cursor accessed) = some (count, reader) ↔
      cursor + (if isDomain then 16 else 0) ≤ 0x100 ∧
        count = (if isDomain then word (bytesAt ipcMessageBuffer cursor) 0 else 0) ∧
        reader = readerAt ipcMessageBuffer (cursor + if isDomain then 16 else 0)
          (accessed ++ if isDomain then [⟨BitVec.ofNat 64 cursor, 16⟩] else []) := by
  cases isDomain with
  | false =>
    simp only [readObjectCount, Bool.false_eq_true, if_false, Option.some.injEq, Prod.mk.injEq,
      Nat.add_zero, List.append_nil, inside, true_and]
    exact and_congr eq_comm eq_comm
  | true =>
    have sixteen : (16 : U64) = BitVec.ofNat 64 16 := rfl
    simp only [readObjectCount, if_true, Option.map_eq_some_iff, Prod.exists, Prod.mk.injEq, sixteen,
      read_iff inside (show 16 ≤ 0x100 by decide)]
    constructor
    · rintro ⟨_, _, ⟨fits, rfl, rfl⟩, rfl, rfl⟩
      exact ⟨fits, rfl, rfl⟩
    · rintro ⟨fits, rfl, rfl⟩
      exact ⟨_, _, ⟨fits, rfl, rfl⟩, rfl, rfl⟩

theorem toNat_alignUp16 {cursor : ℕ} (inside : cursor ≤ 0x100) :
    (alignUp16 (BitVec.ofNat 64 cursor)).toNat = (cursor + 15) / 16 * 16 := by
  have mask : (15 : U64) = bits 4 := rfl
  have fifteen : (15 : U64).toNat = 15 := rfl
  rw [alignUp16]
  nth_rewrite 2 [mask]
  rw [and_not_bits_toNat _ (by decide), BitVec.toNat_add, toNat_ofNat_of_le (by omega), fifteen]
  omega

section Sizes

variable (ipcMessageBuffer isDomain hardcodedDataBytes)

/-- The size of the data as the parse computes it. -/
def dataSize : U64 :=
  if hardcodedDataBytes ≠ 0 then hardcodedDataBytes.setWidth 64
  else dataWordsLeft isDomain (header ipcMessageBuffer).dataWords
    (objectCount ipcMessageBuffer isDomain) * 4

/-- The words that are left are what they should be, up to a wrap. -/
theorem toNat_dataWordsLeft :
    ((dataWordsLeft isDomain (header ipcMessageBuffer).dataWords
      (objectCount ipcMessageBuffer isDomain)).toNat : ℤ) =
      ((dataWords ipcMessageBuffer : ℤ) - neededWords ipcMessageBuffer isDomain) % 2 ^ 64 := by
  have few := (header ipcMessageBuffer).dataWords.isLt
  have objects := (objectCount ipcMessageBuffer isDomain).isLt
  have four : (4 : U64).toNat = 4 := rfl
  cases isDomain with
  | false =>
    simp only [dataWordsLeft, dataWords, neededWords, Bool.false_eq_true, if_false, BitVec.toNat_sub,
      BitVec.toNat_setWidth, four]
    omega
  | true =>
    simp only [dataWordsLeft, dataWords, neededWords, if_true, BitVec.toNat_sub,
      BitVec.toNat_setWidth, four]
    omega

/-- The cursor after the data. -/
theorem toNat_cursor_dataSize (inside : dataStart ipcMessageBuffer isDomain ≤ 0x100) :
    ((BitVec.ofNat 64 (dataStart ipcMessageBuffer isDomain) +
      dataSize ipcMessageBuffer isDomain hardcodedDataBytes).toNat : ℤ) =
      dataEnd ipcMessageBuffer isDomain hardcodedDataBytes % 2 ^ 64 := by
  have left := toNat_dataWordsLeft ipcMessageBuffer isDomain
  have hardcoded := hardcodedDataBytes.isLt
  rw [BitVec.toNat_add, toNat_ofNat_of_le (by omega), dataSize, dataEnd]
  split
  · rw [BitVec.toNat_setWidth]
    omega
  · rw [BitVec.toNat_mul]
    have four : (4 : U64).toNat = 4 := rfl
    rw [four]
    omega

theorem dataEnd_bounds (inside : dataStart ipcMessageBuffer isDomain ≤ 0x100) :
    -2 ^ 40 < dataEnd ipcMessageBuffer isDomain hardcodedDataBytes ∧
      dataEnd ipcMessageBuffer isDomain hardcodedDataBytes < 2 ^ 40 := by
  have few := (header ipcMessageBuffer).dataWords.isLt
  have objects := (objectCount ipcMessageBuffer isDomain).isLt
  have hardcoded := hardcodedDataBytes.isLt
  have needed : neededWords ipcMessageBuffer isDomain < 2 ^ 33 := by
    rw [neededWords]
    split <;> omega
  rw [dataEnd, dataWords]
  split <;> omega

end Sizes

/-! ## What is parsed -/

section Parsed

variable (ipcMessageBuffer isDomain hardcodedDataBytes)

def readsOf : List Access :=
  [⟨0, 8⟩] ++ specialReads ipcMessageBuffer ++
    elementAccesses (staticsStart ipcMessageBuffer) 8 (sendStaticCount ipcMessageBuffer) ++
    (if isDomain then [⟨BitVec.ofNat 64 (headersStart ipcMessageBuffer), 16⟩] else []) ++
    [⟨BitVec.ofNat 64 (outHeaderStart ipcMessageBuffer isDomain), 16⟩] ++
    elementAccesses (dataEnd ipcMessageBuffer isDomain hardcodedDataBytes).toNat 4
      (objectCount ipcMessageBuffer isDomain).toNat

/-- The reply that is in the buffer, if its parts are. -/
structure Parses (response : Response) (accessed : List Access) : Prop where
  headers : dataStart ipcMessageBuffer isDomain ≤ 0x100
  data : 0 ≤ dataEnd ipcMessageBuffer isDomain hardcodedDataBytes
  rest : objectsEnd ipcMessageBuffer isDomain hardcodedDataBytes ≤ 0x100
  result : response.result = word (bytesAt ipcMessageBuffer (outHeaderStart ipcMessageBuffer isDomain)) 8
  objects : response.objects.elements = elementsAt ipcMessageBuffer (word · 0)
    (dataEnd ipcMessageBuffer isDomain hardcodedDataBytes).toNat 4
    (objectCount ipcMessageBuffer isDomain).toNat
  copyHandles : response.hipcCopyHandles.elements = copyHandlesAt ipcMessageBuffer
  moveHandles : response.hipcMoveHandles.elements = moveHandlesAt ipcMessageBuffer
  sendStatics : response.hipcSendStatics.elements = elementsAt ipcMessageBuffer Static.ofBytes
    (staticsStart ipcMessageBuffer) 8 (sendStaticCount ipcMessageBuffer)
  pid : response.pid = pidAt ipcMessageBuffer
  span : response.data = ⟨BitVec.ofNat 64 (dataStart ipcMessageBuffer isDomain),
    dataSize ipcMessageBuffer isDomain hardcodedDataBytes⟩
  reads : accessed = readsOf ipcMessageBuffer isDomain hardcodedDataBytes

end Parsed

theorem seek_headers_iff (inside : staticsEnd ipcMessageBuffer ≤ 0x100) {accessed : List Access}
    {reader : Reader} :
    (readerAt ipcMessageBuffer (staticsEnd ipcMessageBuffer) accessed).seek
      (alignUp16 (readerAt ipcMessageBuffer (staticsEnd ipcMessageBuffer) accessed).stream.mCursor) =
        some reader ↔
      reader = readerAt ipcMessageBuffer (headersStart ipcMessageBuffer) accessed := by
  change (readerAt _ _ _).seek (alignUp16 (BitVec.ofNat 64 (staticsEnd ipcMessageBuffer))) = _ ↔ _
  rw [seek_iff, toNat_alignUp16 inside, ← headersStart, and_iff_right]
  rw [headersStart]
  omega

theorem seek_data_iff (inside : dataStart ipcMessageBuffer isDomain ≤ 0x100) {cursor : ℕ}
    {accessed : List Access} {reader : Reader} :
    (readerAt ipcMessageBuffer cursor accessed).seek
      (BitVec.ofNat 64 (dataStart ipcMessageBuffer isDomain) +
        dataSize ipcMessageBuffer isDomain hardcodedDataBytes) = some reader ↔
      (0 ≤ dataEnd ipcMessageBuffer isDomain hardcodedDataBytes ∧
        dataEnd ipcMessageBuffer isDomain hardcodedDataBytes ≤ 0x100) ∧
      reader = readerAt ipcMessageBuffer
        (dataEnd ipcMessageBuffer isDomain hardcodedDataBytes).toNat accessed := by
  have target := toNat_cursor_dataSize ipcMessageBuffer isDomain hardcodedDataBytes inside
  have bounds := dataEnd_bounds ipcMessageBuffer isDomain hardcodedDataBytes inside
  rw [seek_iff]
  constructor
  · rintro ⟨fits, rfl⟩
    have same : (BitVec.ofNat 64 (dataStart ipcMessageBuffer isDomain) +
        dataSize ipcMessageBuffer isDomain hardcodedDataBytes).toNat =
        (dataEnd ipcMessageBuffer isDomain hardcodedDataBytes).toNat := by omega
    exact ⟨by omega, by rw [same]⟩
  · rintro ⟨fits, rfl⟩
    have same : (BitVec.ofNat 64 (dataStart ipcMessageBuffer isDomain) +
        dataSize ipcMessageBuffer isDomain hardcodedDataBytes).toNat =
        (dataEnd ipcMessageBuffer isDomain hardcodedDataBytes).toNat := by omega
    exact ⟨by omega, by rw [same]⟩

/-- Which replies the parse returns, and what it returns for them. -/
theorem readFromTls_iff {response : Response} {accessed : List Access} :
    Response.readFromTls ipcMessageBuffer isDomain hardcodedDataBytes = some (response, accessed) ↔
      Parses ipcMessageBuffer isDomain hardcodedDataBytes response accessed := by
  have eight : (8 : U64) = BitVec.ofNat 64 8 := rfl
  have sixteen : (16 : U64) = BitVec.ofNat 64 16 := rfl
  have four : (4 : U64) = BitVec.ofNat 64 4 := rfl
  have start : Reader.ofTls ipcMessageBuffer = readerAt ipcMessageBuffer 0 [] := rfl
  have stop : staticsStart ipcMessageBuffer + 8 * sendStaticCount ipcMessageBuffer =
      staticsEnd ipcMessageBuffer := rfl
  simp only [Response.readFromTls, Option.bind_eq_bind, Option.bind_eq_some_iff, Prod.exists,
    Option.some.injEq, Prod.mk.injEq]
  constructor
  · rintro ⟨_, _, first, pid, copyHandles, moveHandles, _, second, sendStatics, _, third, _, fourth,
      _, _, fifth, _, _, sixth, _, seventh, objects, _, eighth, rfl, rfl⟩
    rw [start, eight, read_iff (by decide) (by decide)] at first
    obtain ⟨-, rfl, rfl⟩ := first
    obtain ⟨fits, rfl, copied, moved, rfl⟩ := readSpecial_iff.mp second
    rw [← header, ← sendStaticCount, eight, readEach_iff _ (by decide) _ fits, stop] at third
    obtain ⟨fits, statics, rfl⟩ := third
    obtain rfl := (seek_headers_iff fits).mp fourth
    have aligned : headersStart ipcMessageBuffer ≤ 0x100 := by
      rw [headersStart]
      omega
    obtain ⟨fits, rfl, rfl⟩ := (readObjectCount_iff aligned).mp fifth
    rw [← outHeaderStart] at fits sixth
    rw [sixteen, read_iff fits (by decide)] at sixth
    obtain ⟨headers, rfl, rfl⟩ := sixth
    obtain ⟨⟨data, fits⟩, rfl⟩ := (seek_data_iff headers).mp seventh
    have inside : (dataEnd ipcMessageBuffer isDomain hardcodedDataBytes).toNat ≤ 0x100 := by omega
    rw [← objectCount, four, readEach_iff _ (by decide) _ inside] at eighth
    obtain ⟨rest, added, rfl⟩ := eighth
    refine ⟨headers, data, ?_, rfl, added, copied, moved, statics, rfl, rfl, rfl⟩
    rw [objectsEnd]
    omega
  · rintro ⟨headers, data, rest, result, objects, copied, moved, statics, pid, span, rfl⟩
    have before : staticsEnd ipcMessageBuffer ≤ headersStart ipcMessageBuffer := by
      rw [headersStart]
      omega
    have aligned : outHeaderStart ipcMessageBuffer isDomain + 16 ≤ 0x100 := headers
    have domain : headersStart ipcMessageBuffer + (if isDomain then 16 else 0) ≤ 0x100 :=
      Nat.le_trans (Nat.le_add_right _ _) aligned
    have descriptors : staticsEnd ipcMessageBuffer ≤ 0x100 :=
      before.trans (Nat.le_trans (Nat.le_add_right _ _) domain)
    have special : staticsStart ipcMessageBuffer ≤ 0x100 :=
      Nat.le_trans (Nat.le_add_right _ _) descriptors
    rw [objectsEnd] at rest
    have fits : (dataEnd ipcMessageBuffer isDomain hardcodedDataBytes).toNat +
        4 * (objectCount ipcMessageBuffer isDomain).toNat ≤ 0x100 := by omega
    have inside := Nat.le_trans (Nat.le_add_right _ _) fits
    obtain ⟨_, _, _, _, _, _, _⟩ := response
    cases result
    cases pid
    cases span
    refine ⟨_, _, (read_iff (by decide) (show 8 ≤ 0x100 by decide)).mpr ⟨by decide, rfl, rfl⟩,
      _, _, _, _, readSpecial_iff.mpr ⟨special, rfl, copied, moved, rfl⟩,
      _, _, (readEach_iff _ (show 8 ≤ 0x100 by decide) _ special).mpr ⟨descriptors, statics, rfl⟩,
      _, (seek_headers_iff descriptors).mpr rfl,
      _, _, (readObjectCount_iff (by omega)).mpr ⟨domain, rfl, rfl⟩,
      _, _, (read_iff domain (show 16 ≤ 0x100 by decide)).mpr ⟨aligned, rfl, rfl⟩,
      _, (seek_data_iff headers).mpr ⟨⟨data, by omega⟩, rfl⟩,
      _, _, (readEach_iff _ (show 4 ≤ 0x100 by decide) _ inside).mpr ⟨fits, objects, rfl⟩,
      rfl, ?_⟩
    simp only [readsOf, List.append_assoc]
    rfl

theorem length_elementsAt {T : Type} (ofBytes : (ℕ → Byte) → T) (cursor size n : ℕ) :
    (elementsAt ipcMessageBuffer ofBytes cursor size n).length = n := by
  induction n generalizing cursor with
  | zero => rfl
  | succ n ih => rw [elementsAt, List.length_cons, ih]

/-- The replies that the parse returns. -/
theorem exists_parses_iff :
    (∃ response accessed, Parses ipcMessageBuffer isDomain hardcodedDataBytes response accessed) ↔
      Accepted ipcMessageBuffer isDomain hardcodedDataBytes := by
  constructor
  · rintro ⟨response, accessed, parses⟩
    have few {T : Type} {vec : FixedVec T 8} {ofBytes : (ℕ → Byte) → T} {cursor size n : ℕ}
        (same : vec.elements = elementsAt ipcMessageBuffer ofBytes cursor size n) : n ≤ 8 := by
      rw [← length_elementsAt ofBytes cursor size n, ← same]
      exact vec.fits
    exact ⟨few parses.copyHandles, few parses.moveHandles, few parses.sendStatics, few parses.objects,
      parses.headers, parses.data, parses.rest⟩
  · intro accepted
    have fits {T : Type} (ofBytes : (ℕ → Byte) → T) (cursor size : ℕ) {n : ℕ} (few : n ≤ 8) :
        (elementsAt ipcMessageBuffer ofBytes cursor size n).length ≤ 8 := by
      rwa [length_elementsAt]
    exact ⟨{ result := _, objects := ⟨_, fits _ _ _ accepted.objects⟩
             hipcCopyHandles := ⟨_, fits _ _ _ accepted.copyHandles⟩
             hipcMoveHandles := ⟨_, fits _ _ _ accepted.moveHandles⟩
             hipcSendStatics := ⟨_, fits _ _ _ accepted.statics⟩, pid := _, data := _ }, _,
      accepted.headers, accepted.data, accepted.rest, rfl, rfl, rfl, rfl, rfl, rfl, rfl, rfl⟩

/-! ## Bounds of what is read -/

theorem mem_elementAccesses {cursor size n i : ℕ} (small : i < n) :
    (⟨BitVec.ofNat 64 (cursor + size * i), BitVec.ofNat 64 size⟩ : Access) ∈
      elementAccesses cursor size n := by
  induction n generalizing cursor i with
  | zero => exact absurd small (Nat.not_lt_zero _)
  | succ n ih =>
    cases i with
    | zero => exact List.mem_cons_self ..
    | succ i =>
      rw [Nat.mul_succ, Nat.add_comm (size * i), ← Nat.add_assoc]
      exact List.mem_cons_of_mem _ (ih (Nat.lt_of_succ_lt_succ small))

/-- All of some parts end at a place or before it. -/
def EndsBy (stop : ℕ) (accessed : List Access) : Prop :=
  ∀ access ∈ accessed, access.start.toNat + access.size.toNat ≤ stop

theorem EndsBy.append {stop : ℕ} {first second : List Access} (one : EndsBy stop first)
    (two : EndsBy stop second) : EndsBy stop (first ++ second) :=
  fun access member => (List.mem_append.mp member).elim (one access) (two access)

theorem EndsBy.mono {first second : ℕ} (less : first ≤ second) {accessed : List Access}
    (ends : EndsBy first accessed) : EndsBy second accessed :=
  fun access member => (ends access member).trans less

theorem endsBy_singleton {cursor size : ℕ} (small : cursor + size ≤ 0x1000) :
    EndsBy (cursor + size) [⟨BitVec.ofNat 64 cursor, BitVec.ofNat 64 size⟩] := by
  intro access member
  obtain rfl := List.mem_singleton.mp member
  rw [toNat_ofNat_of_le (by omega), toNat_ofNat_of_le (by omega)]

theorem endsBy_elementAccesses {cursor size n : ℕ} (small : cursor + size * n ≤ 0x1000) :
    EndsBy (cursor + size * n) (elementAccesses cursor size n) := by
  induction n generalizing cursor with
  | zero => exact fun _ => nofun
  | succ n ih =>
    have next : cursor + size * (n + 1) = cursor + size + size * n := by ring
    rw [next] at small ⊢
    intro access member
    cases member with
    | head =>
      exact EndsBy.mono (Nat.le_add_right _ _) (endsBy_singleton (by omega)) _ (List.mem_singleton_self _)
    | tail _ member => exact ih small access member

theorem endsBy_specialReads (special : staticsStart ipcMessageBuffer ≤ 0x100) :
    EndsBy (staticsStart ipcMessageBuffer) (specialReads ipcMessageBuffer) := by
  rw [specialReads]
  split
  case isFalse => exact fun _ => nofun
  case isTrue announced =>
    have start : handlesStart ipcMessageBuffer =
        if (specialHeader ipcMessageBuffer).sendPid then 20 else 12 := if_pos announced
    have handles : handlesStart ipcMessageBuffer ≤ staticsStart ipcMessageBuffer :=
      Nat.le_add_right _ _
    refine .append (.append ?_ ?_) ?_
    · refine .mono (Nat.le_trans ?_ handles) (endsBy_singleton (show 8 + 4 ≤ 0x1000 by decide))
      rw [start]
      split <;> decide
    · split
      case isFalse => exact fun _ => nofun
      case isTrue sendPid =>
        refine .mono (Nat.le_trans ?_ handles) (endsBy_singleton (show 12 + 8 ≤ 0x1000 by decide))
        rw [start, if_pos sendPid]
    · rw [staticsStart] at special ⊢
      exact endsBy_elementAccesses (by omega)

/-! ## The extent -/

/-- Nothing is read after the headers, the data and the objects. -/
theorem endsBy_readsOf (accepted : Accepted ipcMessageBuffer isDomain hardcodedDataBytes) {stop : ℕ}
    (headers : dataStart ipcMessageBuffer isDomain ≤ stop)
    (rest : objectsEnd ipcMessageBuffer isDomain hardcodedDataBytes ≤ stop) :
    EndsBy stop (readsOf ipcMessageBuffer isDomain hardcodedDataBytes) := by
  have inside := accepted.headers
  have last := accepted.rest
  have data := accepted.data
  have out : outHeaderStart ipcMessageBuffer isDomain + 16 ≤ stop := headers
  have out' : outHeaderStart ipcMessageBuffer isDomain + 16 ≤ 0x100 := inside
  have domain : headersStart ipcMessageBuffer + (if isDomain then 16 else 0) ≤ stop := by
    rw [outHeaderStart] at out
    omega
  have aligned : staticsEnd ipcMessageBuffer ≤ headersStart ipcMessageBuffer := by
    rw [headersStart]
    omega
  have before : headersStart ipcMessageBuffer ≤ outHeaderStart ipcMessageBuffer isDomain :=
    Nat.le_add_right _ _
  have statics : staticsStart ipcMessageBuffer + 8 * sendStaticCount ipcMessageBuffer =
      staticsEnd ipcMessageBuffer := rfl
  have first : 8 ≤ staticsStart ipcMessageBuffer := by
    rw [staticsStart, handlesStart]
    split
    · split <;> omega
    · omega
  rw [objectsEnd] at rest last
  refine .append (.append (.append (.append (.append ?_ ?_) ?_) ?_) ?_) ?_
  · have header : EndsBy 8 [⟨0, 8⟩] := endsBy_singleton (show 0 + 8 ≤ 0x1000 by decide)
    exact header.mono (by omega)
  · exact .mono (by omega) (endsBy_specialReads (by omega))
  · exact .mono (by omega) (endsBy_elementAccesses (by omega))
  · split
    case isFalse => exact fun _ => nofun
    case isTrue isDomain =>
      rw [if_pos isDomain] at domain
      have few : headersStart ipcMessageBuffer + 16 ≤ 0x1000 := by omega
      exact .mono domain (endsBy_singleton few)
  · exact .mono out (endsBy_singleton (Nat.le_trans out' (by decide)))
  · exact .mono (by omega) (endsBy_elementAccesses (by omega))

/-- With enough data words the size of the data is what it should be. -/
theorem toNat_dataSize (words : neededWords ipcMessageBuffer isDomain ≤ dataWords ipcMessageBuffer) :
    ((dataSize ipcMessageBuffer isDomain hardcodedDataBytes).toNat : ℤ) =
      dataEnd ipcMessageBuffer isDomain hardcodedDataBytes - dataStart ipcMessageBuffer isDomain := by
  have left := toNat_dataWordsLeft ipcMessageBuffer isDomain
  have few := (header ipcMessageBuffer).dataWords.isLt
  have hardcoded := hardcodedDataBytes.isLt
  have four : (4 : U64).toNat = 4 := rfl
  rw [dataWords] at left words
  rw [dataSize, dataEnd, dataWords]
  split
  · rw [BitVec.toNat_setWidth]
    omega
  · rw [BitVec.toNat_mul, four]
    omega

theorem objectCount_of_not_domain : objectCount ipcMessageBuffer false = 0 := rfl

/-- The headers are inside the data words that the parse takes for them. -/
theorem dataStart_le_extent (words : neededWords ipcMessageBuffer isDomain ≤ dataWords ipcMessageBuffer) :
    dataStart ipcMessageBuffer isDomain ≤ extent ipcMessageBuffer := by
  rw [neededWords] at words
  rw [dataStart, outHeaderStart, headersStart, extent]
  cases isDomain with
  | false => simp only [Bool.false_eq_true, if_false] at words ⊢; omega
  | true => simp only [if_true] at words ⊢; omega

/-- What is left of the data words ends with them. -/
theorem objectsEnd_le_extent (announced : Announced ipcMessageBuffer isDomain hardcodedDataBytes) :
    objectsEnd ipcMessageBuffer isDomain hardcodedDataBytes ≤ extent ipcMessageBuffer := by
  obtain ⟨words, hardcoded⟩ := announced
  by_cases given : hardcodedDataBytes ≠ 0
  · exact hardcoded given
  · rw [neededWords] at words
    rw [objectsEnd, dataEnd, if_neg given, dataStart, outHeaderStart, headersStart, extent, neededWords]
    cases isDomain with
    | false =>
      have none_ : (0 : U32).toNat = 0 := rfl
      simp only [Bool.false_eq_true, if_false, objectCount_of_not_domain, none_] at words ⊢
      omega
    | true =>
      simp only [if_true] at words ⊢
      omega

/-- A parse stays inside the reply exactly if the reply announces what is taken from it. -/
theorem confined_iff :
    Confined ipcMessageBuffer isDomain hardcodedDataBytes ↔
      (Accepted ipcMessageBuffer isDomain hardcodedDataBytes →
        Announced ipcMessageBuffer isDomain hardcodedDataBytes) := by
  constructor
  · intro confined accepted
    obtain ⟨response, accessed, parses⟩ := exists_parses_iff.mpr accepted
    have stays := confined response accessed (readFromTls_iff.mpr parses)
    have words : neededWords ipcMessageBuffer isDomain ≤ dataWords ipcMessageBuffer := by
      have := stays.unwrapped
      omega
    refine ⟨words, fun _ => ?_⟩
    have last := accepted.rest
    have data := accepted.data
    have headers := accepted.headers
    rw [objectsEnd] at last ⊢
    cases objects : (objectCount ipcMessageBuffer isDomain).toNat with
    | zero =>
      -- the data is what ends last
      have within : (BitVec.ofNat 64 (dataStart ipcMessageBuffer isDomain)).toNat +
          (dataSize ipcMessageBuffer isDomain hardcodedDataBytes).toNat ≤ extent ipcMessageBuffer := by
        have inside := stays.data.2
        rwa [parses.span] at inside
      have size : ((dataSize ipcMessageBuffer isDomain hardcodedDataBytes).toNat : ℤ) = _ :=
        toNat_dataSize words
      rw [toNat_ofNat_of_le (by omega)] at within
      omega
    | succ n =>
      have member : (⟨BitVec.ofNat 64 ((dataEnd ipcMessageBuffer isDomain hardcodedDataBytes).toNat +
          4 * n), BitVec.ofNat 64 4⟩ : Access) ∈ accessed := by
        rw [parses.reads, readsOf]
        exact List.mem_append_right _ (mem_elementAccesses (by omega))
      have within : (BitVec.ofNat 64 ((dataEnd ipcMessageBuffer isDomain hardcodedDataBytes).toNat +
          4 * n)).toNat + 4 ≤ extent ipcMessageBuffer := (stays.reads _ member).2
      rw [toNat_ofNat_of_le (by omega)] at within
      omega
  · intro announced response accessed returned
    have parses := readFromTls_iff.mp returned
    have accepted := exists_parses_iff.mp ⟨response, accessed, parses⟩
    have announced := announced accepted
    have headers := dataStart_le_extent announced.words
    have rest := objectsEnd_le_extent announced
    have size : ((dataSize ipcMessageBuffer isDomain hardcodedDataBytes).toNat : ℤ) = _ :=
      toNat_dataSize announced.words
    have few := (header ipcMessageBuffer).dataWords.isLt
    have ends : (BitVec.ofNat 64 (dataStart ipcMessageBuffer isDomain)).toNat +
        (dataSize ipcMessageBuffer isDomain hardcodedDataBytes).toNat =
        dataEnd ipcMessageBuffer isDomain hardcodedDataBytes := by
      rw [toNat_ofNat_of_le (accepted.headers.trans (by decide))]
      omega
    have last : dataEnd ipcMessageBuffer isDomain hardcodedDataBytes ≤
        objectsEnd ipcMessageBuffer isDomain hardcodedDataBytes := by
      rw [objectsEnd]
      omega
    have inside := accepted.rest
    refine ⟨?_, fun access member => ?_, ?_⟩
    · rw [parses.span]
      exact ⟨by exact_mod_cast (ends ▸ last.trans inside), by exact_mod_cast (ends ▸ last.trans rest)⟩
    · rw [parses.reads] at member
      exact ⟨endsBy_readsOf accepted accepted.headers inside access member,
        endsBy_readsOf accepted headers rest access member⟩
    · have words := announced.words
      rw [toNat_dataWordsLeft]
      rw [dataWords] at words ⊢
      omega

/-- An empty message announces no data words, and its data is said to take up nearly all of memory. -/
theorem not_confined : ¬ ∀ ipcMessageBuffer isDomain hardcodedDataBytes,
    Confined ipcMessageBuffer isDomain hardcodedDataBytes := by
  intro holds
  have accepted : Accepted (fun _ => 0) false 0 :=
    ⟨by decide, by decide, by decide, by decide, by decide, by decide, by decide⟩
  obtain ⟨response, accessed, parses⟩ := exists_parses_iff.mpr accepted
  have stays := (holds _ false 0 response accessed (readFromTls_iff.mpr parses)).unwrapped
  have none_ : dataWords (fun _ => 0) = 0 := by decide
  have needed : neededWords (fun _ => 0) false = 8 := rfl
  rw [none_, needed] at stays
  omega

end Hakkun.Sf
