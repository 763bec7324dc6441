import Hakkun.Model.Core.Integer

/-! # Modules in memory and writes to their read-only code

Translated from `hk/ro/RoModule.h` and `hk/ro/RoModule.cpp`. The text and the rodata section of a
module follow each other; each of them has a read-write alias somewhere else, and a write goes
through the alias. Memory is what is behind the aliases, one byte for each address.
-/

namespace Hakkun.Ro

abbrev Byte := BitVec 8
abbrev Memory := Ptr → Byte

/-- `RoModule::Range`. -/
structure Range where
  mStart : Ptr := 0
  mSize : U64 := 0

/-- `Range::end`. -/
def Range.stop (range : Range) : Ptr := range.mStart + range.mSize

/-- `memcpy`; the source is given by its bytes. -/
def memcpy (memory : Memory) (dest : Ptr) (source : ℕ → Byte) (size : U64) : Memory := fun at_ =>
  if (at_ - dest).toNat < size.toNat then source (at_ - dest).toNat else memory at_

/-- The ranges of `hk::ro::RoModule` that `writeRo` uses. -/
structure RoModule where
  mTextRange : Range
  mRodataRange : Range
  mTextRwMapping : Range
  mRodataRwMapping : Range

namespace RoModule

/-- Whether `writeRo` goes through the alias of the text section. -/
def isText (module : RoModule) (offset : U64) : Bool :=
  !(module.mTextRange.mStart + offset ≥ module.mRodataRange.mStart)

def rwPtr (module : RoModule) (offset : U64) : Ptr :=
  if module.isText offset then module.mTextRwMapping.mStart + offset
  else module.mRodataRwMapping.mStart + offset - module.mTextRange.mSize

/-- The two range checks of `writeRo`. -/
def inRange (module : RoModule) (offset writeSize : U64) : Bool :=
  let roPtr := module.mTextRange.mStart + offset
  roPtr ≥ module.mTextRange.mStart && roPtr + writeSize ≤ module.mRodataRange.stop

/-- `writeRo` without a write callback; the result and the memory after the call. -/
def writeRo (module : RoModule) (memory : Memory) (offset : U64) (source : ℕ → Byte)
    (writeSize : U64) : Except String Unit × Memory :=
  if module.mTextRwMapping.mStart = 0 then (.error "NotMapped", memory)
  else if module.mRodataRwMapping.mStart = 0 then (.error "NotMapped", memory)
  else if !module.inRange offset writeSize then (.error "OutOfRange", memory)
  else (.ok (), memcpy memory (module.rwPtr offset) source writeSize)

/-- A module as `findRanges` and `mapRw` leave it: rodata follows text, each alias is as large as
its section, no range wraps, and the aliases are mapped apart from each other. -/
structure Mapped (module : RoModule) : Prop where
  adjacent : module.mRodataRange.mStart = module.mTextRange.mStart + module.mTextRange.mSize
  bound : module.mTextRange.mStart.toNat + module.mTextRange.mSize.toNat +
    module.mRodataRange.mSize.toNat < 2 ^ 64
  textSize : module.mTextRwMapping.mSize = module.mTextRange.mSize
  rodataSize : module.mRodataRwMapping.mSize = module.mRodataRange.mSize
  textMapped : module.mTextRwMapping.mStart ≠ 0
  rodataMapped : module.mRodataRwMapping.mStart ≠ 0
  textBound : module.mTextRwMapping.mStart.toNat + module.mTextRange.mSize.toNat < 2 ^ 64
  rodataBound : module.mRodataRwMapping.mStart.toNat + module.mRodataRange.mSize.toNat < 2 ^ 64
  apart : module.mTextRwMapping.mStart.toNat + module.mTextRange.mSize.toNat ≤
      module.mRodataRwMapping.mStart.toNat ∨
    module.mRodataRwMapping.mStart.toNat + module.mRodataRange.mSize.toNat ≤
      module.mTextRwMapping.mStart.toNat

/-- The sizes of the two sections. -/
def textBytes (module : RoModule) : ℕ := module.mTextRange.mSize.toNat
def rodataBytes (module : RoModule) : ℕ := module.mRodataRange.mSize.toNat

/-- Where the byte at an offset into the text and rodata of a module is aliased. -/
def rwAddress (module : RoModule) (offset : ℕ) : ℕ :=
  if offset < module.textBytes then module.mTextRwMapping.mStart.toNat + offset
  else module.mRodataRwMapping.mStart.toNat + (offset - module.textBytes)

/-- The byte of a module at an offset into its text and rodata. -/
def byteAt (module : RoModule) (memory : Memory) (offset : ℕ) : Byte :=
  memory (BitVec.ofNat 64 (module.rwAddress offset))

end RoModule

end Hakkun.Ro
