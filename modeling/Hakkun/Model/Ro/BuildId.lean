import Hakkun.Model.Ro.RoModule

/-! # The build id of a module

Translated from `RoModule::findBuildId`. The search goes down from the end of the rodata section; it
is given some fuel, and keeps the addresses that it reads.
-/

namespace Hakkun.Ro

def sGnuHashMagic : List Byte := [0x47, 0x4e, 0x55, 0]

/-- The bytes at consecutive addresses. -/
def bytesAt (memory : Memory) (address : Ptr) (count : ℕ) : List Byte :=
  (List.range count).map fun i => memory (address + BitVec.ofNat 64 i)

/-- The addresses that `memcmp` reads. -/
def addresses (address : Ptr) (count : ℕ) : List Ptr :=
  (List.range count).map fun i => address + BitVec.ofNat 64 i

/-- The addresses that are read, and what is returned with the fuel: the new build id. -/
abbrev Search := List Ptr × Option (Except String Ptr)

/-- The loop of `findBuildId`, down to some address. -/
def searchLoop (memory : Memory) (last : Ptr) : (fuel : ℕ) → (search : Ptr) → Search
  | 0, _ => ([], none)
  | fuel + 1, search =>
    if search ≥ last then
      let reads := addresses search sGnuHashMagic.length
      if bytesAt memory search sGnuHashMagic.length = sGnuHashMagic then
        (reads, some (.ok (search + BitVec.ofNat 64 sGnuHashMagic.length)))
      else
        let (later, result) := searchLoop memory last fuel (search - 1)
        (reads ++ later, result)
    else ([], some (.error "GnuHashMissing"))

def findBuildId (memory : Memory) (rodata : Range) (fuel : ℕ) : Search :=
  let rodataEnd := rodata.stop
  searchLoop memory (rodataEnd - cPageSize * 2) fuel rodataEnd

end Hakkun.Ro
