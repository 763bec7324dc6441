import Hakkun.Model.Services.Socket

/-! # Parsing IPv4 addresses

An octet ends before a dot; the last one may also end with the text. So an address that is followed
by a dot is accepted with whatever is behind the dot, and otherwise exactly the addresses are.
-/

namespace Hakkun.Socket

open Container

/-! ## Addresses as text -/

def IsDigit (c : Byte) : Prop := 0x30 ≤ c.toNat ∧ c.toNat ≤ 0x39

instance (c : Byte) : Decidable (IsDigit c) := inferInstanceAs (Decidable (_ ∧ _))

/-- The number that digits give when they follow a number. -/
def decimal (value : ℕ) (digits : List Byte) : ℕ :=
  digits.foldl (fun value c => value * 10 + (c.toNat - 0x30)) value

/-- A decimal number of one to three digits that fits in a byte. -/
structure Octet (digits : List Byte) (octet : Byte) : Prop where
  nonempty : 1 ≤ digits.length
  short : digits.length ≤ 3
  decimals : ∀ c ∈ digits, IsDigit c
  value : decimal 0 digits = octet.toNat

/-- Four numbers with dots between them. -/
def Dotted (text : List Byte) (octets : List Byte) : Prop :=
  ∃ a b c d first second third fourth,
    text = a ++ dot :: (b ++ dot :: (c ++ dot :: d)) ∧ octets = [first, second, third, fourth] ∧
      Octet a first ∧ Octet b second ∧ Octet c third ∧ Octet d fourth

/-- The bytes of an address in memory. -/
def memoryBytes (address : U32) : List Byte :=
  (List.range 4).map fun i => address.extractLsb' (8 * i) 8

/-- The text before the terminator. -/
def content (text : CString Byte) : List Byte := chars text.data text.length.toNat

/-- Nothing behind the terminator is read, and the result is the address of the text if it is
one. -/
def ParsesAddress (text : CString Byte) : Prop :=
  ∃ result, parseAddress text = some result ∧
    ∀ address, result = .ok address ↔ Dotted (content text) (memoryBytes address)

/-- The text goes on behind an address and a dot. -/
def Trails (text : List Byte) : Prop :=
  ∃ front rest octets, text = front ++ dot :: rest ∧ Dotted front octets

/-! ## Digits -/

theorem IsDigit.ne_dot {c : Byte} (digit : IsDigit c) : c ≠ dot := by
  rintro rfl
  exact absurd digit (by decide)

theorem IsDigit.ne_zero {c : Byte} (digit : IsDigit c) : c ≠ 0 := by
  rintro rfl
  exact absurd digit (by decide)

theorem le_decimal (value : ℕ) (digits : List Byte) : value ≤ decimal value digits := by
  induction digits generalizing value with
  | nil => exact le_rfl
  | cons c rest ih =>
    have step := ih (value * 10 + (c.toNat - 0x30))
    change value ≤ decimal (value * 10 + (c.toNat - 0x30)) rest
    omega

/-- A digit is taken up by a number. -/
theorem next_toNat {value : U16} {c : Byte} (small : value.toNat ≤ 0xff) (digit : IsDigit c) :
    (value * 10 + (c - 0x30).setWidth 16 : U16).toNat = value.toNat * 10 + (c.toNat - 0x30) := by
  obtain ⟨low, high⟩ := digit
  have digit : (c - 0x30).toNat = c.toNat - 0x30 := by
    rw [BitVec.toNat_sub]
    change (2 ^ 8 - 48 + c.toNat) % 2 ^ 8 = c.toNat - 48
    omega
  rw [BitVec.toNat_add, BitVec.toNat_mul, BitVec.toNat_setWidth, digit]
  change (value.toNat * 10 % 2 ^ 16 + _) % 2 ^ 16 = _
  omega

/-! ## One octet -/

section Loop

variable {lastOctet : Bool} {left : ℕ} {value : U16} {c octet : Byte} {text tail : List Byte}

/-- The character ends an octet. -/
def EndsOctet (lastOctet : Bool) (c : Byte) : Prop := c = dot ∨ c = 0 ∧ lastOctet = true

theorem not_digit_iff : (c < 0x30 ∨ c > 0x39) ↔ ¬ IsDigit c := by
  simp only [IsDigit, BitVec.lt_def, gt_iff_lt]
  change (c.toNat < 48 ∨ 57 < c.toNat) ↔ _
  omega

theorem parseOctetLoop_digit (small : value.toNat ≤ 0xff) (digit : IsDigit c) :
    parseOctetLoop lastOctet (left + 1) value (c :: text) =
      if 0xff < value.toNat * 10 + (c.toNat - 0x30) then some (.error .OctetTooLarge, text)
      else parseOctetLoop lastOctet left (value * 10 + (c - 0x30).setWidth 16) text := by
  have next := next_toNat small digit
  rw [parseOctetLoop, if_neg (fun first => digit.ne_dot first.1), if_neg, if_neg digit.ne_zero,
    if_neg (fun other => not_digit_iff.mp other digit)]
  · simp only [gt_iff_lt, BitVec.lt_def, next]
    rfl
  · rintro (here | ⟨here, -⟩)
    · exact digit.ne_dot here
    · exact digit.ne_zero here

theorem parseOctetLoop_ends (later : left ≠ 3) (ends : EndsOctet lastOctet c) :
    parseOctetLoop lastOctet (left + 1) value (c :: text) =
      some (.ok (value.setWidth 8), text) := by
  rw [parseOctetLoop, if_neg (fun first => later first.2),
    if_pos (ends.imp_right fun last => ⟨last.1, last.2, later⟩)]

theorem parseOctetLoop_other (value : U16) (text : List Byte) (other : ¬ IsDigit c) (goes : left = 3 ∨ ¬ EndsOctet lastOctet c) :
    ∃ error, parseOctetLoop lastOctet (left + 1) value (c :: text) = some (.error error, text) := by
  rw [parseOctetLoop]
  by_cases first : c = dot ∧ left = 3
  · exact ⟨_, if_pos first⟩
  rw [if_neg first, if_neg]
  · by_cases zero : c = 0
    · exact ⟨_, if_pos zero⟩
    · rw [if_neg zero, if_pos (not_digit_iff.mpr other)]
      exact ⟨_, rfl⟩
  · rintro (here | ⟨zero, last, later⟩)
    · rcases goes with start | goes
      · exact first ⟨here, start⟩
      · exact goes (.inl here)
    · rcases goes with start | goes
      · exact later start
      · exact goes (.inr ⟨zero, last⟩)

/-- A text with a terminator is not read any further. -/
theorem parseOctetLoop_isSome (small : value.toNat ≤ 0xff) (terminated : 0 ∈ text) :
    (parseOctetLoop lastOctet left value text).isSome = true := by
  induction text generalizing left value with
  | nil => cases terminated
  | cons c text ih =>
    cases left with
    | zero => rfl
    | succ left =>
      by_cases digit : IsDigit c
      · rw [parseOctetLoop_digit small digit]
        have next := next_toNat small digit
        split
        · rfl
        · refine ih (by omega) ?_
          rcases List.mem_cons.mp terminated with here | later
          · exact absurd here.symm digit.ne_zero
          · exact later
      · by_cases ends : left ≠ 3 ∧ EndsOctet lastOctet c
        · rw [parseOctetLoop_ends ends.1 ends.2]
          rfl
        · obtain ⟨error, stops⟩ := parseOctetLoop_other value text digit
            (by rwa [not_and_or, not_not] at ends)
          rw [stops]
          rfl

/-- Digits, at least one of them in the first turn, and what ends them. -/
theorem parseOctetLoop_ok_iff (bound : left ≤ 4) (small : value.toNat ≤ 0xff) :
    parseOctetLoop lastOctet left value text = some (.ok octet, tail) ↔
      ∃ digits stop, text = digits ++ stop :: tail ∧ digits.length < left ∧
        (left = 4 → digits ≠ []) ∧ (∀ c ∈ digits, IsDigit c) ∧
          decimal value.toNat digits = octet.toNat ∧ EndsOctet lastOctet stop := by
  induction left generalizing value text with
  | zero => simp [parseOctetLoop]
  | succ left ih =>
    cases text with
    | nil => simp [parseOctetLoop]
    | cons c text =>
      by_cases digit : IsDigit c
      · have next := next_toNat small digit
        rw [parseOctetLoop_digit small digit]
        constructor
        · intro parsed
          split at parsed
          · cases parsed
          · obtain ⟨digits, stop, rfl, short, -, all, sum, ends⟩ :=
              (ih (by omega) (by omega)).mp parsed
            refine ⟨c :: digits, stop, rfl, Nat.succ_lt_succ short, fun _ => List.cons_ne_nil _ _,
              List.forall_mem_cons.mpr ⟨digit, all⟩, ?_, ends⟩
            rw [next] at sum
            exact sum
        · rintro ⟨digits, stop, split, short, -, all, sum, ends⟩
          cases digits with
          | nil =>
            obtain ⟨rfl, -⟩ := List.cons.inj split
            rcases ends with here | ⟨here, -⟩
            · exact absurd here digit.ne_dot
            · exact absurd here digit.ne_zero
          | cons first digits =>
            obtain ⟨rfl, rfl⟩ := List.cons.inj split
            change decimal (value.toNat * 10 + (c.toNat - 0x30)) digits = _ at sum
            have := le_decimal (value.toNat * 10 + (c.toNat - 0x30)) digits
            have := octet.isLt
            rw [if_neg (by omega)]
            refine (ih (by omega) (by omega)).mpr ⟨digits, stop, rfl, Nat.lt_of_succ_lt_succ short,
              by omega, fun c member => all c (List.mem_cons_of_mem _ member), ?_, ends⟩
            rw [next, sum]
      · constructor
        · intro parsed
          by_cases ends : left ≠ 3 ∧ EndsOctet lastOctet c
          · rw [parseOctetLoop_ends ends.1 ends.2] at parsed
            cases parsed
            refine ⟨[], c, rfl, Nat.succ_pos left, by omega, by simp, ?_, ends.2⟩
            rw [BitVec.toNat_setWidth]
            change value.toNat = _
            omega
          · obtain ⟨error, stops⟩ := parseOctetLoop_other value text digit
              (by rwa [not_and_or, not_not] at ends)
            rw [stops] at parsed
            cases parsed
        · rintro ⟨digits, stop, split, short, nonempty, all, sum, ends⟩
          cases digits with
          | nil =>
            obtain ⟨rfl, rfl⟩ := List.cons.inj split
            have later : left ≠ 3 := fun first => nonempty (by omega) rfl
            rw [parseOctetLoop_ends later ends]
            congr
            apply BitVec.eq_of_toNat_eq
            rw [BitVec.toNat_setWidth, ← sum]
            change _ = value.toNat
            omega
          | cons first digits =>
            obtain ⟨rfl, -⟩ := List.cons.inj split
            exact absurd (all c List.mem_cons_self) digit

end Loop

theorem parseOctet_ok_iff {text tail : List Byte} {lastOctet : Bool} {octet : Byte} :
    parseOctet text lastOctet = some (.ok octet, tail) ↔
      ∃ digits stop, text = digits ++ stop :: tail ∧ Octet digits octet ∧
        EndsOctet lastOctet stop := by
  rw [parseOctet, parseOctetLoop_ok_iff le_rfl (by decide)]
  constructor
  · rintro ⟨digits, stop, split, short, nonempty, all, sum, ends⟩
    have positive := List.length_pos_iff.mpr (nonempty rfl)
    exact ⟨digits, stop, split, ⟨positive, Nat.le_of_lt_succ short, all, sum⟩, ends⟩
  · rintro ⟨digits, stop, split, read, ends⟩
    exact ⟨digits, stop, split, Nat.lt_succ_of_le read.short,
      fun _ => List.length_pos_iff.mp read.nonempty, read.decimals, read.value, ends⟩

/-! ## Four octets -/

/-- The address that octets are packed into, before its bytes are swapped. -/
def packed (octets : List Byte) : U32 :=
  octets.foldl (fun value2 octet => value2 <<< 8 ||| octet.setWidth 32) 0

/-- What is left behind an octet that is not the last one. -/
theorem mem_of_parseOctet {text tail : List Byte} {octet : Byte}
    (parsed : parseOctet text false = some (.ok octet, tail)) (terminated : 0 ∈ text) : 0 ∈ tail := by
  obtain ⟨digits, stop, rfl, read, ends⟩ := parseOctet_ok_iff.mp parsed
  rcases List.mem_append.mp terminated with among | behind
  · exact absurd rfl (read.decimals 0 among).ne_zero
  · rcases List.mem_cons.mp behind with here | later
    · rcases ends with dotted | ⟨-, last⟩
      · rw [← here] at dotted
        cases dotted
      · cases last
    · exact later

theorem parseOctets_isSome {octets : List ℕ} (value2 : U32) {text : List Byte}
    (ordered : octets.Pairwise (· < ·)) (small : ∀ i ∈ octets, i ≤ 3) (terminated : 0 ∈ text) :
    (parseOctets octets value2 text).isSome = true := by
  induction octets generalizing value2 text with
  | nil => rfl
  | cons i rest ih =>
    obtain ⟨before, ordered⟩ := List.pairwise_cons.mp ordered
    have reads : (parseOctet text (i == 3)).isSome = true :=
      parseOctetLoop_isSome (by decide) terminated
    obtain ⟨⟨result, tail⟩, parsed⟩ := Option.isSome_iff_exists.mp reads
    rw [parseOctets, parsed, Option.bind_some]
    cases result with
    | error error => rfl
    | ok octet =>
      cases rest with
      | nil => rfl
      | cons next rest =>
        have first : (i == 3) = false := by
          have := before next List.mem_cons_self
          have := small next (by simp)
          exact beq_false_of_ne (by omega)
        rw [first] at parsed
        exact ih _ ordered (fun i member => small i (List.mem_cons_of_mem _ member))
          (mem_of_parseOctet parsed terminated)

theorem parseOctets_cons_ok_iff {i : ℕ} {rest : List ℕ} {value2 value : U32} {text : List Byte} :
    parseOctets (i :: rest) value2 text = some (.ok value) ↔
      ∃ octet tail, parseOctet text (i == 3) = some (.ok octet, tail) ∧
        parseOctets rest (value2 <<< 8 ||| octet.setWidth 32) tail = some (.ok value) := by
  rw [parseOctets, Option.bind_eq_some_iff]
  constructor
  · rintro ⟨⟨result, tail⟩, parsed, more⟩
    cases result with
    | error error => cases more
    | ok octet => exact ⟨octet, tail, parsed, more⟩
  · rintro ⟨octet, tail, parsed, more⟩
    exact ⟨_, parsed, more⟩

/-- The octets are between dots, and the last one ends with a dot or with the text. -/
theorem parseOctets_ok_iff {text : List Byte} {value2 : U32} :
    parseOctets [0, 1, 2, 3] 0 text = some (.ok value2) ↔
      ∃ front stop tail octets, text = front ++ stop :: tail ∧ Dotted front octets ∧
        value2 = packed octets ∧ EndsOctet true stop := by
  have dotted {stop : Byte} : EndsOctet false stop ↔ stop = dot := by simp [EndsOctet]
  have first : ((0 : ℕ) == 3) = false := rfl
  have second : ((1 : ℕ) == 3) = false := rfl
  have third : ((2 : ℕ) == 3) = false := rfl
  have last : ((3 : ℕ) == 3) = true := rfl
  have done (value : U32) (text : List Byte) : parseOctets [] value text = some (.ok value) := rfl
  simp only [parseOctets_cons_ok_iff, parseOctet_ok_iff, first, second, third, last, dotted, done,
    Option.some.injEq, Except.ok.injEq]
  constructor
  · rintro ⟨first, _, ⟨a, _, rfl, one, rfl⟩, second, _, ⟨b, _, rfl, two, rfl⟩, third, _,
      ⟨c, _, rfl, three, rfl⟩, fourth, tail, ⟨d, stop, rfl, four, ends⟩, rfl⟩
    refine ⟨a ++ dot :: (b ++ dot :: (c ++ dot :: d)), stop, tail, [first, second, third, fourth],
      by simp, ⟨a, b, c, d, first, second, third, fourth, rfl, rfl, one, two, three, four⟩, rfl,
      ends⟩
  · rintro ⟨_, stop, tail, _, rfl, ⟨a, b, c, d, first, second, third, fourth, rfl, rfl, one, two,
      three, four⟩, rfl, ends⟩
    exact ⟨first, _, ⟨a, dot, by simp, one, rfl⟩, second, _, ⟨b, dot, rfl, two, rfl⟩, third, _,
      ⟨c, dot, rfl, three, rfl⟩, fourth, tail, ⟨d, stop, rfl, four, ends⟩, rfl⟩

/-! ## Addresses -/

theorem memoryBytes_eq (address : U32) : memoryBytes address =
    [address.extractLsb' 0 8, address.extractLsb' 8 8, address.extractLsb' 16 8,
      address.extractLsb' 24 8] := rfl

section Bytes

variable (first second third fourth : Byte)

theorem packed_four :
    packed [first, second, third, fourth] = first ++ second ++ third ++ fourth := by
  change ((((0 <<< 8 ||| first.setWidth 32) <<< 8 ||| second.setWidth 32) <<< 8 |||
    third.setWidth 32) <<< 8 ||| fourth.setWidth 32 : U32) = _
  apply BitVec.eq_of_getLsbD_eq
  intro i bound
  simp only [BitVec.getLsbD_or, BitVec.getLsbD_shiftLeft, BitVec.getLsbD_setWidth,
    BitVec.getLsbD_append]
  grind

theorem byteswap_append :
    byteswap (first ++ second ++ third ++ fourth) = fourth ++ third ++ second ++ first := by
  rw [byteswap]
  apply BitVec.eq_of_getLsbD_eq
  intro i bound
  simp only [BitVec.getLsbD_extractLsb', BitVec.getLsbD_append]
  grind

theorem memoryBytes_append :
    memoryBytes (fourth ++ third ++ second ++ first) = [first, second, third, fourth] := by
  rw [memoryBytes_eq]
  simp only [List.cons.injEq, and_true]
  refine ⟨?_, ?_, ?_, ?_⟩
  all_goals
    apply BitVec.eq_of_getLsbD_eq
    intro i bound
    simp only [BitVec.getLsbD_extractLsb', BitVec.getLsbD_append]
    grind

end Bytes

/-- The octets are the bytes of the address in memory. -/
theorem memoryBytes_packed {text octets : List Byte} (dotted : Dotted text octets) :
    memoryBytes (byteswap (packed octets)) = octets := by
  obtain ⟨-, -, -, -, first, second, third, fourth, -, rfl, -⟩ := dotted
  rw [packed_four, byteswap_append, memoryBytes_append]

theorem memoryBytes_injective {first second : U32} (same : memoryBytes first = memoryBytes second) :
    first = second := by
  rw [memoryBytes_eq, memoryBytes_eq] at same
  simp only [List.cons.injEq, and_true] at same
  obtain ⟨one, two, three, four⟩ := same
  apply BitVec.eq_of_getLsbD_eq
  intro i bound
  have one := congrArg (BitVec.getLsbD · (i % 8)) one
  have two := congrArg (BitVec.getLsbD · (i % 8)) two
  have three := congrArg (BitVec.getLsbD · (i % 8)) three
  have four := congrArg (BitVec.getLsbD · (i % 8)) four
  simp only [BitVec.getLsbD_extractLsb'] at one two three four
  grind

theorem Octet.count_dot {digits : List Byte} {octet : Byte} (read : Octet digits octet) :
    digits.count dot = 0 := by
  rw [List.count_eq_zero]
  exact fun member => (read.decimals dot member).ne_dot rfl

/-- An address has three dots. -/
theorem Dotted.count_dot {text octets : List Byte} (dotted : Dotted text octets) :
    text.count dot = 3 := by
  obtain ⟨a, b, c, d, first, second, third, fourth, rfl, rfl, one, two, three, four⟩ := dotted
  simp only [List.count_append, List.count_cons_self, one.count_dot, two.count_dot, three.count_dot,
    four.count_dot]

theorem Dotted.length_le {text octets : List Byte} (dotted : Dotted text octets) :
    text.length ≤ 15 := by
  obtain ⟨a, b, c, d, first, second, third, fourth, rfl, rfl, one, two, three, four⟩ := dotted
  have := one.short
  have := two.short
  have := three.short
  have := four.short
  simp only [List.length_append, List.length_cons]
  omega

/-! ## Texts -/

section Text

variable (text : CString Byte)

theorem length_content : (content text).length = text.length.toNat := by
  rw [content, chars, List.length_map, List.length_range]

theorem chars_eq : chars text.data (text.length.toNat + 1) = content text ++ [0] := by
  rw [chars, List.range_succ, List.map_append, List.map_singleton, text.isTerminated]
  rfl

theorem zero_notMem_content : (0 : Byte) ∉ content text := by
  intro member
  obtain ⟨i, inside, zero⟩ := List.mem_map.mp member
  exact text.isFirst i (List.mem_range.mp inside) zero

/-- What ends the last octet: the terminator, or a dot inside of the text. -/
theorem content_of_split {front tail : List Byte} {stop : Byte}
    (split : content text ++ [0] = front ++ stop :: tail) (ends : EndsOctet true stop) :
    content text = front ∨ ∃ rest, content text = front ++ dot :: rest := by
  rcases List.eq_nil_or_concat tail with rfl | ⟨rest, last, rfl⟩
  · exact .inl (List.append_inj' split rfl).1
  · rw [List.concat_eq_append, ← List.cons_append, ← List.append_assoc] at split
    have inside : content text = front ++ stop :: rest := (List.append_inj' split rfl).1
    rcases ends with rfl | ⟨rfl, -⟩
    · exact .inr ⟨rest, inside⟩
    · refine absurd ?_ (zero_notMem_content text)
      rw [inside]
      exact List.mem_append_right _ List.mem_cons_self

theorem parseAddress_ok_iff (short : text.length ≤ 15) {address : U32} :
    parseAddress text = some (.ok address) ↔
      ∃ front, Dotted front (memoryBytes address) ∧
        (content text = front ∨ ∃ rest, content text = front ++ dot :: rest) := by
  rw [parseAddress, if_pos short, chars_eq, Option.map_eq_some_iff]
  constructor
  · rintro ⟨result, parsed, swapped⟩
    cases result with
    | error error => cases swapped
    | ok value2 =>
      cases swapped
      obtain ⟨front, stop, tail, octets, split, dotted, rfl, ends⟩ := parseOctets_ok_iff.mp parsed
      rw [memoryBytes_packed dotted]
      exact ⟨front, dotted, content_of_split text split ends⟩
  · rintro ⟨front, dotted, behind⟩
    refine ⟨.ok (packed (memoryBytes address)), parseOctets_ok_iff.mpr ?_, ?_⟩
    · rcases behind with same | ⟨rest, split⟩
      · exact ⟨front, 0, [], _, by rw [same], dotted, rfl, .inr ⟨rfl, rfl⟩⟩
      · exact ⟨front, dot, rest ++ [0], _, by rw [split]; simp, dotted, rfl, .inl rfl⟩
    · exact congrArg Except.ok (memoryBytes_injective (memoryBytes_packed dotted))

theorem parseAddress_isSome : (parseAddress text).isSome = true := by
  rw [parseAddress]
  split
  · rw [Option.isSome_map, chars_eq]
    exact parseOctets_isSome 0 (by decide) (by decide) (List.mem_append_right _ (by simp))
  · rfl

end Text

/-- What trails an address has a fourth dot. -/
theorem not_dotted_of_trails {front rest octets others : List Byte} (dotted : Dotted front octets) :
    ¬ Dotted (front ++ dot :: rest) others := by
  intro longer
  have count := longer.count_dot
  rw [List.count_append, List.count_cons_self, dotted.count_dot] at count
  omega

/-- An address is parsed, and nothing else is, unless a dot follows an address in a text of at most
15 characters. -/
theorem parsesAddress_iff (text : CString Byte) :
    ParsesAddress text ↔ ¬ (text.length.toNat ≤ 15 ∧ Trails (content text)) := by
  have bound : text.length ≤ 15 ↔ text.length.toNat ≤ 15 := BitVec.le_def
  constructor
  · rintro ⟨result, parsed, only⟩ ⟨short, front, rest, octets, split, dotted⟩
    have swapped := memoryBytes_packed dotted
    have accepted := (parseAddress_ok_iff text (bound.mpr short)).mpr
      ⟨front, swapped.symm ▸ dotted, .inr ⟨rest, split⟩⟩
    have address := (only _).mp (Option.some.inj (parsed.symm.trans accepted))
    rw [split] at address
    exact not_dotted_of_trails dotted address
  · intro clean
    obtain ⟨result, parsed⟩ := Option.isSome_iff_exists.mp (parseAddress_isSome text)
    refine ⟨result, parsed, fun address => ?_⟩
    have accepts : result = .ok address ↔ parseAddress text = some (.ok address) := by
      rw [parsed, Option.some.injEq]
    rw [accepts]
    by_cases short : text.length ≤ 15
    · rw [parseAddress_ok_iff text short]
      constructor
      · rintro ⟨front, dotted, same | ⟨rest, split⟩⟩
        · exact same ▸ dotted
        · exact absurd ⟨bound.mp short, front, rest, _, split, dotted⟩ clean
      · exact fun dotted => ⟨_, dotted, .inl rfl⟩
    · rw [parseAddress, if_neg short]
      refine iff_of_false nofun fun dotted => short (bound.mpr ?_)
      rw [← length_content]
      exact dotted.length_le

/-- The text `1.2.3.4.x`. -/
def trailing : CString Byte where
  data i := [0x31, 0x2e, 0x32, 0x2e, 0x33, 0x2e, 0x34, 0x2e, 0x78].getD i 0
  length := 9
  isTerminated := rfl
  isFirst := by decide

/-- Its first part is an address and is accepted. -/
theorem not_parsesAddress_trailing :
    parseAddress trailing = some (.ok 0x04030201) ∧ ¬ ParsesAddress trailing := by
  refine ⟨by decide, ?_⟩
  rintro ⟨result, parsed, only⟩
  have address := (only 0x04030201).mp (Option.some.inj (parsed.symm.trans (by decide)))
  exact absurd address.count_dot (by decide)

end Hakkun.Socket
