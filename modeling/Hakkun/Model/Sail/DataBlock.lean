import Hakkun.Model.Ro.RoModule

/-! # The search function of a data block

Translated from `hexStringToBytesWithMatch` of sail's `include/util.h` and from what
`generateDataBlockSearchFunction` of `src/fakelib.cpp` emits: `compareMask`, and for each data block
a function that searches a region of memory. A run also gives the reads that it makes.
-/

namespace Hakkun.Sail

open Ro (Byte Memory)

/-! ## Patterns -/

def isxdigit (c : Char) : Bool :=
  c.isDigit || decide ('a' ≤ c ∧ c ≤ 'f') || decide ('A' ≤ c ∧ c ≤ 'F')

/-- `isdigit(c) ? (c - '0') : (tolower(c) - 'a' + 10)`. -/
def digitValue (c : Char) : Byte :=
  if c.isDigit then BitVec.ofNat 8 (c.toNat - '0'.toNat)
  else BitVec.ofNat 8 (c.toLower.toNat - 'a'.toNat + 10)

/-- One digit of a byte and its mask, which is shifted into place; `keep` is what a wildcard leaves
of the mask. -/
def addDigit (shift : ℕ) (keep : Byte) (c : Char) (entry : Byte × Byte) : Option (Byte × Byte) :=
  if c = '?' then some (entry.1, entry.2 &&& keep)
  else if isxdigit c then some (entry.1 ||| digitValue c <<< shift, entry.2)
  else none

/-- The loop over the pairs of digits; the bytes and their masks. -/
def addPairs : List Char → Option (List Byte × List Byte)
  | high :: low :: rest => do
    let entry ← addDigit 4 0x0F high (0, 0xFF)
    let (byte, mask) ← addDigit 0 0xF0 low entry
    let (out, outMask) ← addPairs rest
    some (byte :: out, mask :: outMask)
  | _ => some ([], [])

/-- `hexStringToBytesWithMatch`. -/
def hexStringToBytesWithMatch (hex : List Char) : Option (List Byte × List Byte) :=
  if hex.length % 2 ≠ 0 then none else addPairs hex

/-! ## Comparison -/

/-- The part of a pattern that is compared as one integer. -/
structure Block where
  offset : ℕ
  size : ℕ

/-- One of the two comparisons of `compareMask` that are made at most once, and how many bytes are
processed after it. -/
def narrowBlock (n processed size : ℕ) : List Block × ℕ :=
  if n - processed ≥ size then ([⟨processed, size⟩], processed + size) else ([], processed)

/-- The integers that `compareMask` reads of `n` bytes: of eight bytes as long as there are as many,
at most one of four and one of two, and single bytes. -/
def blocks (n : ℕ) : List Block :=
  let n8 := n / 8
  let (four, processed) := narrowBlock n (n8 * 8) 4
  let (two, processed) := narrowBlock n processed 2
  (List.range n8).map (fun i => ⟨i * 8, 8⟩) ++ four ++ two ++
    (List.range' processed (n - processed)).map fun i => ⟨i, 1⟩

/-- A little-endian integer of `size` bytes. -/
def readInt (bytes : ℕ → Byte) (offset : ℕ) : ℕ → ℕ
  | 0 => 0
  | size + 1 => (bytes offset).toNat + 2 ^ 8 * readInt bytes (offset + 1) size

/-- A read of memory. -/
structure Read where
  address : Ptr
  size : ℕ
  deriving DecidableEq

variable (memory : Memory) (data maskData : List Byte)

/-- `*(const uintN_t*)(compareData + processed)` against the data, both masked. -/
def compareBlock (compareData : Ptr) (block : Block) : Bool :=
  let compare := readInt (fun i => memory (compareData + BitVec.ofNat 64 i)) block.offset block.size
  let data := readInt (fun i => data.getD i 0) block.offset block.size
  let mask := readInt (fun i => maskData.getD i 0) block.offset block.size
  compare &&& mask == data &&& mask

/-- The comparisons up to the first that fails. -/
def compareBlocks (compareData : Ptr) : List Block → Bool × List Read
  | [] => (true, [])
  | block :: rest =>
    let read : Read := ⟨compareData + BitVec.ofNat 64 block.offset, block.size⟩
    if compareBlock memory data maskData compareData block then
      let (same, reads) := compareBlocks compareData rest
      (same, read :: reads)
    else (false, [read])

/-- `compareMask`. -/
def compareMask (compareData : Ptr) (n : ℕ) : Bool × List Read :=
  compareBlocks memory data maskData compareData (blocks n)

/-! ## Search -/

/-- The loop of a search function, with the reads that it makes; fuel bounds its turns. -/
def searchLoop (stop : Ptr) : ℕ → Ptr → Option (Ptr × List Read)
  | 0, _ => none
  | fuel + 1, search =>
    if search < stop then
      let (same, reads) := compareMask memory data maskData search data.length
      if same then some (search, reads)
      else (searchLoop stop fuel (search + 4)).map fun (address, later) => (address, reads ++ later)
    else some (0, [])

/-- A search function, whose `cData` and `cDataMask` are the data and the mask. -/
def searchDataBlock (fuel : ℕ) (start : Ptr) (len : U64) : Option (Ptr × List Read) :=
  searchLoop memory data maskData (start + len - BitVec.ofNat 64 data.length) fuel start

end Hakkun.Sail
