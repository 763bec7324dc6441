import Hakkun.Model.Container.FixedString

/-! # Socket addresses

Translated from `SocketAddrIpv4::parseAddress` of `hk/services/socket/address.h`. The text is read
up to its terminator; a read behind it has no result.
-/

namespace Hakkun.Socket

open Container

abbrev Byte := BitVec 8
abbrev U16 := BitVec 16

def dot : Byte := 0x2e

inductive ParseError where
  | TooLong
  | DelimiterBeforeDigit
  | EarlyEndOfString
  | InvalidCharacter
  | OctetTooLarge
  | OctetTooWide
  deriving DecidableEq

/-- The loop of `parseOctet` when so many of its four turns are left. -/
def parseOctetLoop (lastOctet : Bool) :
    ℕ → U16 → List Byte → Option (Except ParseError Byte × List Byte)
  | 0, _, text => some (.error .OctetTooWide, text)
  | _ + 1, _, [] => none
  | left + 1, value, c :: text =>
    if c = dot ∧ left = 3 then some (.error .DelimiterBeforeDigit, text)
    else if c = dot ∨ c = 0 ∧ lastOctet = true ∧ left ≠ 3 then
      some (.ok (value.setWidth 8), text)
    else if c = 0 then some (.error .EarlyEndOfString, text)
    else if c < 0x30 ∨ c > 0x39 then some (.error .InvalidCharacter, text)
    else
      let value := value * 10
      let value := value + (c - 0x30).setWidth 16
      if value > 0xFF then some (.error .OctetTooLarge, text)
      else parseOctetLoop lastOctet left value text

/-- `parseOctet`, and what is left of the text. -/
def parseOctet (text : List Byte) (lastOctet : Bool) : Option (Except ParseError Byte × List Byte) :=
  parseOctetLoop lastOctet 4 0 text

/-- The loop of `parseAddress` from an octet on. -/
def parseOctets : List ℕ → U32 → List Byte → Option (Except ParseError U32)
  | [], value2, _ => some (.ok value2)
  | i :: rest, value2, text =>
    (parseOctet text (i == 3)).bind fun (octet, text) =>
      match octet with
      | .error error => some (.error error)
      | .ok octet => parseOctets rest (value2 <<< 8 ||| octet.setWidth 32) text

/-- `std::byteswap`. -/
def byteswap (value : U32) : U32 :=
  value.extractLsb' 0 8 ++ value.extractLsb' 8 8 ++ value.extractLsb' 16 8 ++
    value.extractLsb' 24 8

/-- `parseAddress`. -/
def parseAddress (text : CString Byte) : Option (Except ParseError U32) :=
  if text.length ≤ 15 then
    (parseOctets [0, 1, 2, 3] 0 (chars text.data (text.length.toNat + 1))).map
      fun result => result.map byteswap
  else some (.error .TooLong)

end Hakkun.Socket
