import Hakkun.Model.Container.FixedString
import Hakkun.Model.Util.Hash

/-! # Murmur hashes in pieces

Translated from `HashMurmur32Impl` and `HashMurmur64Impl` of `hk/util/hash.h`. A hash object reads
its data through the callback, what it is fed it reads directly. The elements are bytes that the
platform reads as its `char`.
-/

namespace Hakkun.Util.Murmur

open Container

/-- `Read::read` with the data and the user data of an object, at an offset. -/
abbrev Read := ℕ → CChar

/-- A platform whose `uint_fast32_t` has the bits that the language asks for. -/
structure StandardPlatform extends Platform where
  wide : 32 ≤ fastBits

def getBlock (platform : Platform) (read : Read) (i : ℕ) : U32 :=
  let a := platform.widen 32 (read (0 + i * 4))
  let b := platform.widen 32 (read (1 + i * 4))
  let c := platform.widen 32 (read (2 + i * 4))
  let d := platform.widen 32 (read (3 + i * 4))
  a <<< 0 ||| b <<< 8 ||| c <<< 16 ||| d <<< 24

def getBlock64 (platform : Platform) (read : Read) (i : ℕ) : U64 :=
  let a := platform.widen 64 (read (0 + i * 8))
  let b := platform.widen 64 (read (1 + i * 8))
  let c := platform.widen 64 (read (2 + i * 8))
  let d := platform.widen 64 (read (3 + i * 8))
  let e := platform.widen 64 (read (4 + i * 8))
  let f := platform.widen 64 (read (5 + i * 8))
  let g := platform.widen 64 (read (6 + i * 8))
  let h := platform.widen 64 (read (7 + i * 8))
  a <<< 0 ||| b <<< 8 ||| c <<< 16 ||| d <<< 24 ||| e <<< 32 ||| f <<< 40 ||| g <<< 48 ||| h <<< 56

/-- The `tailData` of `feedNullTerminated`, of four bytes in both classes. -/
def tailData (str : CString CChar) (tail : U64) : Read := fun i =>
  if i < tail.toNat then str.data (str.length - tail + BitVec.ofNat 64 i).toNat else 0

/-- `HashMurmur32Impl`; a `fu32` has the bits of the platform. -/
structure HashMurmur32Impl (platform : Platform) where
  read : Read
  mLen : BitVec platform.fastBits
  mSeed : U32
  mHashValue : U32

namespace HashMurmur32Impl

variable {platform : Platform}

/-- The constructor. -/
def make (read : Read) (len : BitVec platform.fastBits) (seed : U32) : HashMurmur32Impl platform :=
  ⟨read, len, seed, seed⟩

/-- The loop body of `feed` and `calcWithCallback` behind the load. -/
def mix (hashValue k1 : U32) : U32 :=
  let k1 := k1 * c1
  let k1 := rotateLeft32 k1 15
  let k1 := k1 * c2
  let hashValue := hashValue ^^^ k1
  let hashValue := rotateLeft32 hashValue 13
  hashValue * 5 + c3

/-- The loop of `feed` and `calcWithCallback`. -/
def mixBlocks (platform : Platform) (read : Read) (nblocks : ℕ) (hashValue : U32) : U32 :=
  (List.range nblocks).foldl (fun hashValue i => mix hashValue (getBlock platform read i)) hashValue

variable (hash : HashMurmur32Impl platform)

def feed (fedData : Read) (fedLen : BitVec platform.fastBits) : HashMurmur32Impl platform :=
  { hash with mHashValue := mixBlocks platform fedData (fedLen.toNat / 4) hash.mHashValue }

def feedNullTerminated (str : CString CChar) : HashMurmur32Impl platform :=
  let len := str.length
  let hash := hash.feed str.data (len.setWidth _)
  let tail := len &&& 3
  if tail > 0 then hash.feed (tailData str tail) (BitVec.ofNat _ 4) else hash

def calcWithCallback : HashMurmur32Impl platform :=
  { hash with mHashValue := mixBlocks platform hash.read (hash.mLen.toNat / 4) hash.mHashValue }

def finalize : U32 :=
  let h1 := hash.mHashValue
  let tail := BitVec.ofNat 32 (hash.mLen.toNat - hash.mLen.toNat % 4)
  let third := platform.widen 32 (hash.read (tail + 2).toNat) <<< 16
  let second := platform.widen 32 (hash.read (tail + 1).toNat) <<< 8
  let first := platform.widen 32 (hash.read (tail + 0).toNat)
  let mixed (k1 : U32) := rotateLeft32 (k1 * c1) 15 * c2
  let h1 :=
    match hash.mLen.toNat % 4 with
    | 3 => h1 ^^^ mixed (0 ^^^ third ^^^ second ^^^ first)
    | 2 => h1 ^^^ mixed (0 ^^^ second ^^^ first)
    | 1 => h1 ^^^ mixed (0 ^^^ first)
    | _ => h1
  finalMix (h1 ^^^ hash.mLen.setWidth 32)

end HashMurmur32Impl

def hashMurmurImpl {platform : Platform} (read : Read) (len : BitVec platform.fastBits)
    (seed : U32) : U32 :=
  (HashMurmur32Impl.make read len seed).calcWithCallback.finalize

/-- `HashMurmur64Impl`. -/
structure HashMurmur64Impl where
  read : Read
  mLen : U64
  mHashValue : U64

namespace HashMurmur64Impl

def cConstant : U64 := 0xc6a4a7935bd1e995
def cShift : ℕ := 47
def cDefaultSeed : U64 := 0xa9f63e6017234875

def finalMix64 (h : U64) : U64 :=
  let h := (h ^^^ h >>> cShift) * cConstant
  h ^^^ h >>> cShift

/-- The constructor. -/
def make (read : Read) (len : U64) (seed : U64) : HashMurmur64Impl :=
  ⟨read, len, len * cConstant ^^^ seed⟩

/-- The loop body of `feed` and `calcWithCallback` behind the load. -/
def mix (hashValue value : U64) : U64 :=
  ((value * cConstant ^^^ (value * cConstant) >>> cShift) * cConstant ^^^ hashValue) * cConstant

/-- The loop of `feed` and `calcWithCallback`. -/
def mixBlocks (platform : Platform) (read : Read) (nblocks : ℕ) (hashValue : U64) : U64 :=
  (List.range nblocks).foldl (fun hashValue i => mix hashValue (getBlock64 platform read i))
    hashValue

variable (platform : Platform) (hash : HashMurmur64Impl)

def feed (fedData : Read) (fedLen : U64) : HashMurmur64Impl :=
  { hash with mHashValue := mixBlocks platform fedData (fedLen.toNat / 8) hash.mHashValue }

def feedNullTerminated (str : CString CChar) : HashMurmur64Impl :=
  let len := str.length
  let hash := hash.feed platform str.data len
  let tail := len &&& 3
  if tail > 0 then hash.feed platform (tailData str tail) 4 else hash

def calcWithCallback : HashMurmur64Impl :=
  { hash with mHashValue := mixBlocks platform hash.read (hash.mLen.toNat / 8) hash.mHashValue }

def finalize : U64 :=
  let h1 := hash.mHashValue
  let tail := hash.mLen - hash.mLen % 8
  let byte (i : U64) := platform.widen 64 (hash.read (tail + i).toNat)
  let h1 := if hash.mLen &&& 7 ≥ 7 then h1 ^^^ byte 6 <<< 48 else h1
  let h1 := if hash.mLen &&& 7 ≥ 6 then h1 ^^^ byte 5 <<< 40 else h1
  let h1 := if hash.mLen &&& 7 ≥ 5 then h1 ^^^ byte 4 <<< 32 else h1
  let h1 := if hash.mLen &&& 7 ≥ 4 then h1 ^^^ byte 3 <<< 24 else h1
  let h1 := if hash.mLen &&& 7 ≥ 3 then h1 ^^^ byte 2 <<< 16 else h1
  let h1 := if hash.mLen &&& 7 ≥ 2 then h1 ^^^ byte 1 <<< 8 else h1
  let h1 := if hash.mLen &&& 7 ≥ 1 then (h1 ^^^ byte 0) * cConstant else h1
  finalMix64 h1

end HashMurmur64Impl

def hashMurmur64Impl (platform : Platform) (read : Read) (len : U64) (seed : U64) : U64 :=
  ((HashMurmur64Impl.make read len seed).calcWithCallback platform).finalize platform

end Hakkun.Util.Murmur
