import Hakkun.Model.Core.Integer

/-! # Symbol hashes of the runtime and of the linker tool

Translated from `hk/util/hash.h` and from sail's `include/hash.h`. Both read a name as plain
`char`, whose sign depends on the platform they are compiled for, and measure it with
`uint_fast32_t`, whose width does too. A name is the list of its bytes before the NUL.
-/

namespace Hakkun.Util

abbrev CChar := BitVec 8

/-- What C++ leaves to the platform. -/
structure Platform where
  charSigned : Bool
  fastBits : ℕ

/-- The platform sail is compiled for. -/
def Platform.host : Platform := ⟨true, 64⟩

/-- The platform the runtime is compiled for. -/
def Platform.aarch64 : Platform := ⟨false, 32⟩

/-- The promotion of a `char` to `int` and its conversion to an unsigned type. -/
def Platform.widen (platform : Platform) (width : ℕ) (c : CChar) : BitVec width :=
  if platform.charSigned then c.signExtend width else c.setWidth width

/-- `ReadDefault::read`. -/
def readDefault (data : List CChar) (offset : ℕ) : CChar := data.getD offset 0

def getBlock (platform : Platform) (p : List CChar) (i : ℕ) : U32 :=
  let a := platform.widen 32 (readDefault p (0 + i * 4))
  let b := platform.widen 32 (readDefault p (1 + i * 4))
  let c := platform.widen 32 (readDefault p (2 + i * 4))
  let d := platform.widen 32 (readDefault p (3 + i * 4))
  a <<< 0 ||| b <<< 8 ||| c <<< 16 ||| d <<< 24

def rotateLeft32 (x : U32) (r : ℕ) : U32 := x <<< r ||| x >>> (32 - r)

def finalMix (h : U32) : U32 :=
  let h := h ^^^ h >>> 16
  let h := h * 0x85ebca6b
  let h := h ^^^ h >>> 13
  let h := h * 0xc2b2ae35
  h ^^^ h >>> 16

def c1 : U32 := 0xcc9e2d51
def c2 : U32 := 0x1b873593
def c3 : U32 := 0xe6546b64

/-- A `fu32` holding a length. -/
def Platform.fast (platform : Platform) (length : ℕ) : ℕ := length % 2 ^ platform.fastBits

namespace HashMurmur32Impl

/-- The loop body of `feed` and `calcWithCallback`. -/
def block (platform : Platform) (data : List CChar) (hashValue : U32) (i : ℕ) : U32 :=
  let k1 := getBlock platform data i
  let k1 := k1 * c1
  let k1 := rotateLeft32 k1 15
  let k1 := k1 * c2
  let hashValue := hashValue ^^^ k1
  let hashValue := rotateLeft32 hashValue 13
  hashValue * 5 + c3

def calcWithCallback (platform : Platform) (data : List CChar) (len : ℕ) (seed : U32) : U32 :=
  (List.range (len / 4)).foldl (block platform data) seed

def finalize (platform : Platform) (data : List CChar) (len : ℕ) (hashValue : U32) : U32 :=
  let tail := BitVec.ofNat 32 (len - len % 4)
  let third := platform.widen 32 (readDefault data (tail + 2).toNat) <<< 16
  let second := platform.widen 32 (readDefault data (tail + 1).toNat) <<< 8
  let first := platform.widen 32 (readDefault data (tail + 0).toNat)
  let mix (k1 : U32) := rotateLeft32 (k1 * c1) 15 * c2
  let h1 :=
    match len % 4 with
    | 3 => hashValue ^^^ mix (0 ^^^ third ^^^ second ^^^ first)
    | 2 => hashValue ^^^ mix (0 ^^^ second ^^^ first)
    | 1 => hashValue ^^^ mix (0 ^^^ first)
    | _ => hashValue
  finalMix (h1 ^^^ BitVec.ofNat 32 len)

end HashMurmur32Impl

/-- `hk::util::hashMurmur` of a string. -/
def hashMurmur (platform : Platform) (str : List CChar) (seed : U32) : U32 :=
  let len := platform.fast str.length
  HashMurmur32Impl.finalize platform str len
    (HashMurmur32Impl.calcWithCallback platform str len seed)

/-- One turn of the loop of `hashElfBucket`. -/
def hashElfBucketStep (platform : Platform) (h : U64) (c : CChar) : U64 :=
  let h := (h <<< 4) + platform.widen 64 c
  let g := h &&& 0xf0000000
  let h := if g ≠ 0 then h ^^^ g >>> 24 else h
  h &&& ~~~g

def hashElfBucket (platform : Platform) (name : List CChar) : U64 :=
  name.foldl (hashElfBucketStep platform) 0

def hashDjb2 (name : List CChar) : U32 :=
  name.foldl (fun h c => h * 33 + c.setWidth 32) 5381

end Hakkun.Util

namespace Hakkun.Sail

open Hakkun.Util

/-- The loop body of `hashMurmurImpl`. -/
def hashMurmurBlock (platform : Platform) (data : List CChar) (h1 : U32) (i : ℕ) : U32 :=
  let k1 := getBlock platform data i
  let k1 := k1 * c1
  let k1 := rotateLeft32 k1 15
  let k1 := k1 * c2
  let h1 := h1 ^^^ k1
  let h1 := rotateLeft32 h1 13
  h1 * 5 + c3

/-- `sail::detail::hashMurmurImpl`. -/
def hashMurmurImpl (platform : Platform) (data : List CChar) (len : ℕ) (seed : U32) : U32 :=
  let h1 := (List.range (len / 4)).foldl (hashMurmurBlock platform data) seed
  let tail := BitVec.ofNat 32 (len - len % 4)
  let k1 : U32 := 0
  let k1 := if len % 4 = 3 then
    k1 ^^^ platform.widen 32 (readDefault data (tail + 2).toNat) <<< 16 else k1
  let k1 := if len % 4 ≥ 2 then
    k1 ^^^ platform.widen 32 (readDefault data (tail + 1).toNat) <<< 8 else k1
  let h1 := if len % 4 ≥ 1 then
    h1 ^^^ rotateLeft32
      ((k1 ^^^ platform.widen 32 (readDefault data (tail + 0).toNat)) * c1) 15 * c2 else h1
  finalMix (h1 ^^^ BitVec.ofNat 32 len)

/-- `sail::hashMurmur` of a string. -/
def hashMurmur (platform : Platform) (str : List CChar) (seed : U32) : U32 :=
  hashMurmurImpl platform str (platform.fast str.length) seed

/-- One turn of the loop of `rtldElfHash`. -/
def rtldElfHashStep (platform : Platform) (h : U64) (c : CChar) : U64 :=
  let h := (h <<< 4) + platform.widen 64 c
  let g := h &&& 0xf0000000
  let h := if g ≠ 0 then h ^^^ g >>> 24 else h
  h &&& ~~~g

def rtldElfHash (platform : Platform) (name : List CChar) : U64 :=
  name.foldl (rtldElfHashStep platform) 0

def djb2Hash (name : List CChar) : U32 :=
  name.foldl (fun h p => h * 33 + p.setWidth 32) 5381

end Hakkun.Sail
