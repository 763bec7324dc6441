import Hakkun.Soundness.SymbolLanguage
import Mathlib.Data.List.TakeWhile

/-! # What the parser reads of a statement

Each statement is read as it is described but for its numbers, of which 32 bits are kept and what
follows the digits is ignored, an immediate before any marker, and the space that is documented in
`readAdrpGlobal`.
-/

namespace Hakkun.Sail

/-! ## Conditions -/

/-- The parser finds digits. -/
def Number.Converts (number : Number) : Prop := convert number.text ≠ none

/-- A number that is hexadecimal to its end, below a bound. -/
def Number.Below (bound : ℕ) (number : Number) : Prop :=
  ∃ value, number.value? = some value ∧ value < bound

/-- Where the parser finds digits there is a number below a bound. -/
def Number.Fits (bound : ℕ) (number : Number) : Prop := number.Converts → number.Below bound

/-- An addend that fits, where there is one. -/
def AddendFits (addend : Option (Sign × Number)) : Prop :=
  ∀ sign number, addend = some (sign, number) → number.Fits (2 ^ 31)

/-- The numbers of a statement fit, an immediate is after a marker, and an offset is written without
a space. -/
def Statement.Fair (modules : ModuleList) (latest : Option Marker) : Statement → Prop
  | immediate _ offset => offset.Converts → latest.isSome = true ∧ offset.Below (2 ^ 32)
  | dataBlock _ pattern module _ bound addend =>
    (blockParts modules pattern module bound).isSome = true → AddendFits addend
  | arithmetic _ _ _ addend => addend.Fits (2 ^ 31)
  | readAdrpGlobal _ _ (some (false, offset)) => offset.Fits (2 ^ 31)
  | readAdrpGlobal _ _ (some (true, offset)) => ¬ offset.Below (2 ^ 31)
  | _ => True

/-! ## Verdicts -/

/-- Whether a result is what is described, according to a condition. -/
inductive Verdict {T D : Type} (same : T → D → Prop) (fair : Prop) :
    Except Failure T → Option D → Prop
  | described {t : T} {d : D} (holds : fair) (agree : same t d) : Verdict same fair (.ok t) (some d)
  | rejected {message : Text} (holds : fair) :
    Verdict same fair (.error (.syntaxError message)) none
  | accepted {t : T} (fails : ¬ fair) : Verdict same fair (.ok t) none
  | refused {failure : Failure} {d : D} (fails : ¬ fair) :
    Verdict same fair (.error failure) (some d)
  | undefined {d : Option D} (fails : ¬ fair) : Verdict same fair (.error .undefined) d

namespace Verdict

variable {T D : Type} {same : T → D → Prop} {fair : Prop} {result : Except Failure T}
  {description : Option D}

/-- What is made of a result is the same if it is made of the same. -/
theorem bind {T' D' : Type} {same' : T' → D' → Prop}
    (verdict : Verdict same fair result description) {f : T → T'} {g : D → D'} (keeps : ∀ t d, same t d → same' (f t) (g d)) :
    Verdict same' fair (result >>= fun t => .ok (f t)) (description.bind fun d => some (g d)) := by
  cases verdict with
  | described holds agree => exact .described holds (keeps _ _ agree)
  | rejected holds => exact .rejected holds
  | accepted fails => exact .accepted fails
  | refused fails => exact .refused fails
  | undefined fails => exact .undefined fails

theorem congr {fair' : Prop} (verdict : Verdict same fair result description)
    (iff_ : fair ↔ fair') : Verdict same fair' result description :=
  propext iff_ ▸ verdict

end Verdict

/-! ## Numbers -/

private theorem ne_of_isxdigit {c d : Char} (digit : isxdigit c = true)
    (other : isxdigit d = false) : c ≠ d := by
  rintro rfl
  rw [other] at digit
  cases digit

private theorem isspace_of_isxdigit {c : Char} (digit : isxdigit c = true) : isspace c = false := by
  rw [isspace, decide_eq_false_iff_not]
  intro member
  simp only [List.mem_cons, List.not_mem_nil, or_false] at member
  rcases member with rfl | rfl | rfl | rfl | rfl | rfl <;> cases digit

private theorem skipBase_of_isxdigit {text : Text} (digits : ∀ c ∈ text, isxdigit c = true) :
    skipBase text = text := by
  match text with
  | [] => rfl
  | [c] => simp only [skipBase]
  | [c, d] => simp only [skipBase]
  | c :: x :: d :: rest =>
    have lower : x ≠ 'x' := ne_of_isxdigit (digits x (by simp)) (by decide)
    have upper : x ≠ 'X' := ne_of_isxdigit (digits x (by simp)) (by decide)
    by_cases zero : c = '0'
    · subst zero
      simp [skipBase, lower, upper]
    · simp [skipBase, zero]

/-- All of a number that is hexadecimal to its end is converted. -/
theorem Number.convert_of_value {number : Number} {value : ℕ} (valid : number.value? = some value) :
    convert number.text = some (false, value) := by
  rw [Number.value?] at valid
  obtain ⟨⟨nonempty, all⟩, same⟩ := Option.ite_none_right_eq_some.mp valid
  cases same
  rw [List.all_eq_true] at all
  have trimmed : number.text.dropWhile isspace = number.text := by
    rw [List.dropWhile_eq_self_iff]
    intro long
    rw [isspace_of_isxdigit (all _ (List.getElem_mem long))]
    exact Bool.false_ne_true
  have unsigned : takeSign number.text = (false, number.text) := by
    cases h : number.text with
    | nil => rfl
    | cons c rest =>
      have digit : isxdigit c = true := all c (by rw [h]; exact List.mem_cons_self)
      have minus : c ≠ '-' := ne_of_isxdigit digit (by decide)
      have plus : c ≠ '+' := ne_of_isxdigit digit (by decide)
      simp [takeSign, minus, plus]
  have taken : number.text.takeWhile isxdigit = number.text := List.takeWhile_eq_self_iff.mpr all
  rw [convert, trimmed, unsigned]
  simp only [skipBase_of_isxdigit all, taken, if_neg nonempty]

theorem Number.converts_of_value {number : Number} {value : ℕ}
    (valid : number.value? = some value) : number.Converts := by
  rw [Number.Converts, Number.convert_of_value valid]
  exact Option.some_ne_none _

/-- A conversion that keeps the magnitudes below a bound in 32 bits. -/
structure Reads (read : Text → Option U64) (bound : ℕ) : Prop where
  none_iff : ∀ num, read num = none ↔ convert num = none
  value : ∀ num magnitude, convert num = some (false, magnitude) → magnitude < bound →
    (read num).map (BitVec.setWidth 32) = some (BitVec.ofNat 32 magnitude)

theorem reads_strtoul : Reads strtoul (2 ^ 64) where
  none_iff num := Option.map_eq_none_iff
  value num magnitude converts below := by
    rw [strtoul, converts]
    simp only [Option.map_some, ge_iff_le, if_neg (Nat.not_le.mpr below), Bool.false_eq_true,
      if_false]
    rw [BitVec.setWidth_ofNat_of_le (by decide)]

theorem reads_strtol : Reads strtol (2 ^ 63) where
  none_iff num := Option.map_eq_none_iff
  value num magnitude converts below := by
    rw [strtol, converts]
    simp only [Option.map_some, Bool.false_eq_true, if_false,
      Nat.min_eq_left (Nat.le_sub_one_of_lt below)]
    rw [BitVec.setWidth_ofNat_of_le (by decide)]

/-- A number is not read, or read as its value if that is below a bound. -/
theorem parseNumber_cases {read : Text → Option U64} {bound : ℕ} (reads : Reads read bound)
    (number : Number) (prefixError : String) :
    ¬ number.Converts ∧ (∃ message, parseNumber read prefixError number.written =
        .error (.syntaxError message)) ∨
      number.Converts ∧ ∃ offset, parseNumber read prefixError number.written = .ok offset ∧
        ∀ value, number.value? = some value → value < bound → offset = BitVec.ofNat 32 value := by
  cases h : read number.text with
  | none =>
    have parsed : parseNumber read prefixError number.written =
        syntaxErrorAt "not a number" number.written := by
      rw [parseNumber, if_pos (show ['0', 'x'].isPrefixOf number.written = true from rfl),
        show read (number.written.drop 2) = none from h]
    rw [parsed]
    exact .inl ⟨not_not_intro ((reads.none_iff _).mp h), _, rfl⟩
  | some offset =>
    have parsed : parseNumber read prefixError number.written = .ok (offset.setWidth 32) := by
      rw [parseNumber, if_pos (show ['0', 'x'].isPrefixOf number.written = true from rfl),
        show read (number.written.drop 2) = some offset from h]
    rw [parsed]
    refine .inr ⟨fun none => ?_, _, rfl, fun value valid below => ?_⟩
    · rw [(reads.none_iff _).mpr none] at h
      cases h
    · have kept := reads.value _ _ (Number.convert_of_value valid) below
      rw [h] at kept
      exact Option.some.inj kept

theorem Number.unsigned_eq {number : Number} {value : ℕ} (valid : number.value? = some value)
    (below : value < 2 ^ 32) : number.unsigned = some (BitVec.ofNat 32 value) := by
  rw [Number.unsigned, valid, Option.bind_some, if_pos below]

theorem Number.unsigned_eq_none {number : Number} (not_below : ¬ number.Below (2 ^ 32)) :
    number.unsigned = none := by
  rw [Number.unsigned, Option.bind_eq_none_iff]
  intro value valid
  exact if_neg fun below => not_below ⟨value, valid, below⟩

theorem Number.signed_eq {number : Number} {value : ℕ} (valid : number.value? = some value)
    (below : value < 2 ^ 31) (sign : Sign) :
    number.signed sign = some (match sign with
      | .plus => BitVec.ofNat 32 value
      | .minus => -BitVec.ofNat 32 value) := by
  rw [Number.signed, valid, Option.bind_some]
  cases sign with
  | plus => exact if_pos below
  | minus => exact if_pos below.le

theorem Number.signed_plus_eq_none {number : Number} (not_below : ¬ number.Below (2 ^ 31)) :
    number.signed .plus = none := by
  rw [Number.signed, Option.bind_eq_none_iff]
  intro value valid
  exact if_neg fun below => not_below ⟨value, valid, below⟩

theorem Number.signed_minus_eq_none {number : Number}
    (above : ∀ value, number.value? = some value → 2 ^ 31 < value) :
    number.signed .minus = none := by
  rw [Number.signed, Option.bind_eq_none_iff]
  intro value valid
  exact if_neg (Nat.not_le.mpr (above value valid))

/-- A number that is not negated is read as it is described if it fits. -/
theorem parseNumber_verdict {read : Text → Option U64} {bound limit : ℕ} (reads : Reads read bound)
    (enough : limit ≤ bound) {number : Number} {description : Option U32} (prefixError : String)
    (valid : ∀ value, number.value? = some value → value < limit →
      description = some (BitVec.ofNat 32 value))
    (invalid : ¬ number.Below limit → description = none) :
    Verdict Eq (number.Fits limit) (parseNumber read prefixError number.written) description := by
  rcases parseNumber_cases reads number prefixError with
    ⟨fails, message, same⟩ | ⟨converts, offset, same, kept⟩
  · have none : description = none := invalid fun ⟨value, is, _⟩ =>
      fails (Number.converts_of_value is)
    rw [same, none]
    exact .rejected fun converts => (fails converts).elim
  · rw [same]
    by_cases below : number.Below limit
    · obtain ⟨value, is, small⟩ := below
      rw [valid value is small, kept value is (small.trans_le enough)]
      exact .described (fun _ => ⟨value, is, small⟩) rfl
    · rw [invalid below]
      exact .accepted fun fits => below (fits converts)

theorem immediate_verdict (number : Number) (prefixError : String) :
    Verdict Eq (number.Fits (2 ^ 32)) (parseNumber strtoul prefixError number.written)
      number.unsigned :=
  parseNumber_verdict reads_strtoul (by decide) prefixError
    (fun _ is small => Number.unsigned_eq is small) Number.unsigned_eq_none

theorem offset_verdict (number : Number) (prefixError : String) :
    Verdict Eq (number.Fits (2 ^ 31)) (parseNumber strtol prefixError number.written)
      (number.signed .plus) :=
  parseNumber_verdict reads_strtol (by decide) prefixError
    (fun _ is small => Number.signed_eq is small .plus) Number.signed_plus_eq_none

/-- A number and its sign are read as they are described if the number fits; the least number is
undefined. -/
theorem signed_verdict (sign : Sign) (number : Number) (prefixError : String) :
    Verdict Eq (number.Fits (2 ^ 31))
      (parseNumber strtoul prefixError number.written >>= fun offset =>
        match sign with
        | .plus => .ok offset
        | .minus => negate offset) (number.signed sign) := by
  rcases parseNumber_cases reads_strtoul number prefixError with
    ⟨fails, message, same⟩ | ⟨converts, offset, same, kept⟩
  · have none : number.value? = none := by
      cases is : number.value? with
      | none => rfl
      | some value => exact (fails (Number.converts_of_value is)).elim
    have undescribed : number.signed sign = Option.none := by rw [Number.signed, none]; rfl
    rw [same, undescribed]
    exact .rejected fun converts => (fails converts).elim
  · rw [same]
    cases sign with
    | plus =>
      by_cases below : number.Below (2 ^ 31)
      · obtain ⟨value, is, small⟩ := below
        rw [Number.signed_eq is small, kept value is (small.trans (by decide))]
        exact .described (fun _ => ⟨value, is, small⟩) rfl
      · rw [Number.signed_plus_eq_none below]
        exact .accepted fun fits => below (fits converts)
    | minus =>
      change Verdict Eq _ (negate offset) _
      rw [negate]
      by_cases below : number.Below (2 ^ 31)
      · obtain ⟨value, is, small⟩ := below
        have least : BitVec.ofNat 32 value ≠ 0x80000000 := by
          rw [Ne, ← BitVec.toNat_inj, BitVec.toNat_ofNat,
            Nat.mod_eq_of_lt (small.trans (by decide))]
          exact small.ne
        rw [Number.signed_eq is small, kept value is (small.trans (by decide)), if_neg least]
        exact .described (fun _ => ⟨value, is, small⟩) rfl
      · by_cases least : offset = 0x80000000
        · rw [if_pos least]
          exact .undefined fun fits => below (fits converts)
        · rw [if_neg least, Number.signed_minus_eq_none]
          · exact .accepted fun fits => below (fits converts)
          · intro value is
            have large : 2 ^ 31 ≤ value := Nat.not_lt.mp fun small => below ⟨value, is, small⟩
            refine lt_of_le_of_ne large fun same => least ?_
            rw [kept value is (by omega), ← same]
            rfl

/-! ## Texts -/

theorem find_of_not_mem {c : Char} {text : Text} (absent : c ∉ text) : find [c] text = none := by
  rcases find_singleton c text with ⟨before, after, rfl, -, -⟩ | ⟨-, missing⟩
  · exact (absent (List.mem_append_right _ List.mem_cons_self)).elim
  · exact missing

theorem find_append_cons {c : Char} {before : Text} (absent : c ∉ before) (after : Text) :
    find [c] (before ++ c :: after) = some before.length := by
  induction before with
  | nil => simp [find]
  | cons d before ih =>
    rw [List.mem_cons, not_or] at absent
    have skip : [c].isPrefixOf (d :: (before ++ c :: after)) = false := by
      simp [List.isPrefixOf, absent.1]
    rw [List.cons_append, find, skip, ih absent.2]
    rfl

theorem split_pair {one two : Text} {delim : Char} (first : one ≠ []) (second : two ≠ [])
    (inside : delim ∉ one) (inside' : delim ∉ two) :
    split (one ++ delim :: two) delim = [one, two] := by
  rw [split_append_cons inside, split_of_not_mem inside', if_neg first, if_neg second]
  rfl

namespace Ident

variable (ident : Ident)

theorem not_mem {c : Char} (other : isNameChar c = false) : c ∉ ident.text := by
  intro member
  rw [ident.chars c member] at other
  cases other

theorem not_marker : ['@'].isPrefixOf ident.text = false := by
  cases h : ident.text with
  | nil => exact (ident.nonempty h).elim
  | cons c rest =>
    have other : '@' ≠ c := by
      rintro rfl
      exact ident.not_mem (c := '@') (by decide) (by rw [h]; exact List.mem_cons_self)
    simp [List.isPrefixOf, other]

end Ident

theorem Number.not_mem (number : Number) {c : Char} (other : isNumberChar c = false)
    (outside : c ∉ ['0', 'x']) : c ∉ number.written := by
  intro member
  rcases List.mem_append.mp (show c ∈ ['0', 'x'] ++ number.text from member) with start | digits
  · exact outside start
  · rw [number.chars c digits] at other
    cases other

/-! ## Statements -/

/-- The variables of the parser after a marker and symbols. -/
def stateOf (latest : Option Marker) (symbols : List Symbol) : ParserState :=
  ⟨latest.map Marker.moduleIdx, latest.elim [] Marker.versions, symbols⟩

/-- The parser goes on as described after some symbols. -/
def Continues (symbols : List Symbol) (state : ParserState)
    (description : Option Marker × List Symbol) : Prop :=
  state = stateOf description.1 (symbols ++ description.2)

variable (modules : ModuleList) (latest : Option Marker) (symbols : List Symbol)

theorem parseParts_assignment (state : ParserState) (name : Ident) (source : Text) :
    parseParts modules state [name.text, ['='], source] =
      parseAssignment state name.text source := by
  rw [parseParts, name.not_marker]
  rfl

theorem immediate_read (name : Ident) (offset : Number) :
    Verdict (Continues symbols) ((Statement.immediate name offset).Fair modules latest)
      (parseParts modules (stateOf latest symbols) (Statement.immediate name offset).parts)
      ((Statement.immediate name offset).describe modules latest) := by
  have parsed : parseParts modules (stateOf latest symbols)
      (Statement.immediate name offset).parts =
      parseNumber strtoul "not a number" offset.written >>= fun value =>
        .ok (addImmediateSymbol (stateOf latest symbols) name.text value) :=
    parseParts_assignment modules _ name offset.written
  rw [parsed]
  cases latest with
  | none =>
    rcases parseNumber_cases reads_strtoul offset "not a number" with
      ⟨fails, message, same⟩ | ⟨converts, value, same, -⟩
    · rw [same]
      exact .rejected fun converts => (fails converts).elim
    · rw [same]
      exact .accepted fun fair => Bool.false_ne_true (fair converts).1
  | some current =>
    have fair : offset.Fits (2 ^ 32) ↔
        (Statement.immediate name offset).Fair modules (some current) :=
      ⟨fun fits converts => ⟨rfl, fits converts⟩, fun fits converts => (fits converts).2⟩
    refine ((immediate_verdict offset "not a number").bind ?_).congr fair
    rintro value _ rfl
    rfl

theorem dynamic_read (name target : Ident) :
    Verdict (Continues symbols) ((Statement.dynamic name target).Fair modules latest)
      (parseParts modules (stateOf latest symbols) (Statement.dynamic name target).parts)
      ((Statement.dynamic name target).describe modules latest) := by
  have endquote : rfind '"' ('"' :: (target.text ++ ['"'])) = some (target.text.length + 1) := by
    have last : ('"' :: (target.text ++ ['"'])).reverse =
        '"' :: (target.text.reverse ++ ['"']) := by
      simp
    rw [rfind, last, find_of_isPrefixOf rfl]
    simp
  have inner : ((('"' :: (target.text ++ ['"'])).drop 1).take
      (('"' :: (target.text ++ ['"'])).length - 2)) = target.text := by
    simp
  have parsed : parseParts modules (stateOf latest symbols)
      (Statement.dynamic name target).parts =
      .ok (addDynamicSymbol (stateOf latest symbols) name.text target.text) := by
    rw [Statement.parts, parseParts_assignment, parseAssignment, endquote, inner]
    rfl
  rw [parsed]
  exact .described trivial rfl

theorem compact_read (name : Ident) :
    Verdict (Continues symbols) ((Statement.compact name).Fair modules latest)
      (parseParts modules (stateOf latest symbols) (Statement.compact name).parts)
      ((Statement.compact name).describe modules latest) := by
  have parsed : parseParts modules (stateOf latest symbols) (Statement.compact name).parts =
      .ok (addDynamicSymbol (stateOf latest symbols) name.text name.text) := by
    rw [Statement.parts, parseParts, name.not_marker]
    rfl
  rw [parsed]
  exact .described trivial rfl

theorem arithmetic_read (name source : Ident) (sign : Sign) (addend : Number) :
    Verdict (Continues symbols) ((Statement.arithmetic name source sign addend).Fair modules latest)
      (parseParts modules (stateOf latest symbols)
        (Statement.arithmetic name source sign addend).parts)
      ((Statement.arithmetic name source sign addend).describe modules latest) := by
  have parsed : parseParts modules (stateOf latest symbols)
      (Statement.arithmetic name source sign addend).parts =
      (parseNumber strtoul "not a number" addend.written >>= fun offset =>
        match sign with
        | .plus => .ok offset
        | .minus => negate offset) >>= fun offset =>
      .ok ((stateOf latest symbols).add
        ⟨cStr name.text, .arithmetic (cStr source.text) offset, [], true⟩) := by
    rw [Statement.parts, parseParts, name.not_marker, bind_assoc]
    cases sign <;> rfl
  rw [parsed]
  apply (signed_verdict sign addend "not a number").bind
  rintro offset _ rfl
  rfl

/-! ## Markers -/

theorem not_mem_versionsWritten {before c : Char} (other : isNameChar c = false)
    (versions : List Ident) (apart : c ≠ before) (comma : c ≠ ',') :
    c ∉ versionsWritten before versions := by
  induction versions generalizing before with
  | nil => exact List.not_mem_nil
  | cons version versions ih =>
    intro member
    rcases List.mem_append.mp member with here | later
    · rcases List.mem_cons.mp here with same | inside
      · exact apart same
      · exact version.not_mem other inside
    · exact ih comma later

theorem split_versions (version : Ident) (versions : List Ident) :
    split (version.text ++ versionsWritten ',' versions) ',' =
      (version :: versions).map Ident.text := by
  induction versions generalizing version with
  | nil =>
    rw [versionsWritten, List.append_nil, split_of_not_mem (version.not_mem (by decide)),
      if_neg version.nonempty]
    rfl
  | cons next versions ih =>
    rw [versionsWritten, List.cons_append, split_append_cons (version.not_mem (by decide)), ih next,
      if_neg version.nonempty]
    rfl

/-- The parts of a marker at `:`. -/
theorem split_marker (module : Ident) (versions : List Ident) :
    ∃ listed, split (module.text ++ versionsWritten ':' versions) ':' = module.text :: listed ∧
      listed.length ≤ 1 ∧
      (match listed with
        | [] => []
        | listed :: _ => split listed ',') = versions.map Ident.text := by
  cases versions with
  | nil =>
    refine ⟨[], ?_, by decide, rfl⟩
    rw [versionsWritten, List.append_nil, split_of_not_mem (module.not_mem (by decide)),
      if_neg module.nonempty]
  | cons version versions =>
    refine ⟨[version.text ++ versionsWritten ',' versions], ?_, by simp,
      split_versions version versions⟩
    apply split_pair module.nonempty
    · exact List.append_ne_nil_of_left_ne_nil version.nonempty _
    · exact module.not_mem (by decide)
    · intro member
      rcases List.mem_append.mp member with here | later
      · exact version.not_mem (by decide) here
      · exact not_mem_versionsWritten (by decide) versions (by decide) (by decide) later

/-- The versions are all known, or one of them is reported. -/
theorem versions_read (module : Text) (versions : List Ident) :
    Verdict Eq True
      ((versions.map Ident.text).mapM fun version =>
        match modules.getVersionIndex module version with
        | none => syntaxErrorAt "unknown version" version
        | some verIndex => .ok verIndex)
      (versions.mapM fun version => modules.getVersionIndex module version.text) := by
  induction versions with
  | nil => exact .described trivial rfl
  | cons version versions ih =>
    rw [List.map_cons, List.mapM_cons, List.mapM_cons]
    cases modules.getVersionIndex module version.text with
    | none => exact .rejected trivial
    | some verIndex =>
      apply ih.bind (f := (verIndex :: ·)) (g := (verIndex :: ·))
      rintro indices _ rfl
      rfl

theorem marker_read (module : Ident) (versions : List Ident) :
    Verdict (Continues symbols) ((Statement.marker module versions).Fair modules latest)
      (parseParts modules (stateOf latest symbols) (Statement.marker module versions).parts)
      ((Statement.marker module versions).describe modules latest) := by
  obtain ⟨listed, split_, short, inner⟩ := split_marker module versions
  have nonempty : module.text ++ versionsWritten ':' versions ≠ [] :=
    List.append_ne_nil_of_left_ne_nil module.nonempty _
  have few : ¬ (module.text :: listed).length > 2 := by
    rw [List.length_cons]
    omega
  have parsed : parseParts modules (stateOf latest symbols)
      (Statement.marker module versions).parts =
      match modules.getModuleIndex module.text with
      | none => syntaxErrorAt "unknown module" module.text
      | some index => ((versions.map Ident.text).mapM fun version =>
          match modules.getVersionIndex module.text version with
          | none => syntaxErrorAt "unknown version" version
          | some verIndex => .ok verIndex) >>= fun indices =>
        .ok (stateOf (some ⟨index, indices⟩) symbols) := by
    rw [← inner]
    change parseMarker modules (stateOf latest symbols)
      ('@' :: (module.text ++ versionsWritten ':' versions)) = _
    rw [parseMarker]
    simp only [List.drop_succ_cons, List.drop_zero, if_neg nonempty, split_, if_neg few]
    rfl
  rw [parsed, Statement.describe]
  cases modules.getModuleIndex module.text with
  | none => exact .rejected trivial
  | some index =>
    apply (versions_read modules module.text versions).bind
    rintro indices _ rfl
    rw [Continues, List.append_nil]

/-! ## `readAdrpGlobal` -/

/-- The source without its name and brackets. -/
theorem readAdrpGlobal_inner (inner : Text) :
    find ['('] ("readAdrpGlobal(".toList ++ inner ++ [')']) = some 14 ∧
      ("readAdrpGlobal(".toList ++ inner ++ [')']).getLast? = some ')' ∧
      (("readAdrpGlobal(".toList ++ inner ++ [')']).drop 15).dropLast = inner := by
  have length : "readAdrpGlobal(".toList.length = 15 := rfl
  have name : "readAdrpGlobal(".toList = "readAdrpGlobal".toList ++ ['('] := rfl
  refine ⟨?_, List.getLast?_concat, ?_⟩
  · have absent : '(' ∉ "readAdrpGlobal".toList := by decide
    rw [name, List.append_assoc, List.append_assoc]
    exact find_append_cons absent (inner ++ [')'])
  · rw [List.append_assoc, List.drop_left' length, List.dropLast_concat]

theorem parseAssignment_readAdrpGlobal (state : ParserState) (name inner : Text) :
    parseAssignment state name ("readAdrpGlobal(".toList ++ inner ++ [')']) =
      parseReadAdrpGlobal state name ("readAdrpGlobal(".toList ++ inner ++ [')']) := by
  have starts : "readAdrpGlobal".toList.isPrefixOf
      ("readAdrpGlobal(".toList ++ inner ++ [')']) = true := by
    have name : "readAdrpGlobal(".toList = "readAdrpGlobal".toList ++ ['('] := rfl
    rw [List.isPrefixOf_iff_prefix, name, List.append_assoc, List.append_assoc]
    exact List.prefix_append _ _
  have number : ¬ ['0', 'x'].isPrefixOf ("readAdrpGlobal(".toList ++ inner ++ [')']) = true :=
    Bool.false_ne_true
  have quote : ¬ ['"'].isPrefixOf ("readAdrpGlobal(".toList ++ inner ++ [')']) = true :=
    Bool.false_ne_true
  rw [parseAssignment, if_neg number, if_neg quote, if_pos starts]

/-- `parseReadAdrpGlobal` of what is between the brackets. -/
theorem parseReadAdrpGlobal_eq (state : ParserState) (name : Ident) (inner : Text) :
    parseParts modules state [name.text, ['='], "readAdrpGlobal(".toList ++ inner ++ [')']] =
      match find [','] inner with
      | none => .ok (state.add ⟨cStr name.text, .readADRPGlobal (cStr inner) 1, [], true⟩)
      | some commaAt =>
        match split inner ',' with
        | [_, component] => parseNumber strtol "not a hex number" component >>= fun offset =>
            .ok (state.add ⟨cStr name.text, .readADRPGlobal (cStr (inner.take commaAt)) offset, [],
              true⟩)
        | _ => syntaxError "readAdrpGlobal commas invalid" := by
  obtain ⟨left, right, middle⟩ := readAdrpGlobal_inner inner
  rw [parseParts_assignment, parseAssignment_readAdrpGlobal, parseReadAdrpGlobal, left]
  simp only [right, ne_eq, not_true_eq_false, if_false, middle]
  cases find [','] inner with
  | none => rfl
  | some commaAt =>
    rcases split inner ',' with _ | ⟨_, _ | ⟨component, _ | ⟨_, _⟩⟩⟩
    · rfl
    · rfl
    · cases parseNumber strtol "not a hex number" component with
      | error failure => rfl
      | ok offset => rfl
    · rfl

theorem readAdrpGlobal_read (name source : Ident) (offset : Option (Bool × Number)) :
    Verdict (Continues symbols) ((Statement.readAdrpGlobal name source offset).Fair modules latest)
      (parseParts modules (stateOf latest symbols)
        (Statement.readAdrpGlobal name source offset).parts)
      ((Statement.readAdrpGlobal name source offset).describe modules latest) := by
  match offset with
  | none =>
    rw [Statement.parts, parseReadAdrpGlobal_eq, find_of_not_mem (source.not_mem (by decide))]
    exact .described trivial rfl
  | some (false, offset) =>
    have comma : ',' ∉ source.text := source.not_mem (by decide)
    have halves : split (source.text ++ ',' :: offset.written) ',' =
        [source.text, offset.written] :=
      split_pair source.nonempty (List.cons_ne_nil _ _) comma
        (offset.not_mem (by decide) (by decide))
    have shape : (Statement.readAdrpGlobal name source (some (false, offset))).parts =
        [name.text, ['='],
          "readAdrpGlobal(".toList ++ (source.text ++ ',' :: offset.written) ++ [')']] := by
      simp [Statement.parts]
    have parsed : parseParts modules (stateOf latest symbols)
        (Statement.readAdrpGlobal name source (some (false, offset))).parts =
        parseNumber strtol "not a hex number" offset.written >>= fun value =>
        .ok ((stateOf latest symbols).add
          ⟨cStr name.text, .readADRPGlobal (cStr source.text) value, [], true⟩) := by
      rw [shape, parseReadAdrpGlobal_eq, find_append_cons comma, halves]
      simp only [List.take_left]
    rw [parsed]
    apply (offset_verdict offset "not a hex number").bind
    rintro value _ rfl
    rfl
  | some (true, offset) =>
    have parsed : parseParts modules (stateOf latest symbols)
        (Statement.readAdrpGlobal name source (some (true, offset))).parts =
        syntaxError "not sure what this is" := by
      rw [Statement.parts, parseParts, name.not_marker]
      rfl
    have described : (Statement.readAdrpGlobal name source (some (true, offset))).describe modules
        latest = (offset.signed .plus).bind fun value => some (latest,
          [⟨cStr name.text, .readADRPGlobal (cStr source.text) value, [], true⟩]) := rfl
    rw [parsed, described]
    by_cases below : offset.Below (2 ^ 31)
    · obtain ⟨value, is, small⟩ := below
      rw [Number.signed_eq is small .plus]
      exact .refused (not_not_intro ⟨value, is, small⟩)
    · rw [Number.signed_plus_eq_none below]
      exact .rejected below

/-! ## Data blocks -/

/-- A module and its section. -/
def sectionWritten (module : Ident) (section_ : Option DataSection) : Text :=
  module.text ++ section_.elim [] fun section_ => ':' :: section_.written

theorem not_mem_sectionWritten {c : Char} (other : isNameChar c = false) (colon : c ≠ ':')
    (module : Ident) (section_ : Option DataSection) : c ∉ sectionWritten module section_ := by
  intro member
  rcases List.mem_append.mp member with name | rest
  · exact module.not_mem other name
  · cases section_ with
    | none => exact List.not_mem_nil rest
    | some section_ =>
      rcases List.mem_cons.mp rest with same | inside
      · exact colon same
      · have letters : ∀ c ∈ section_.written, isNameChar c = true := by
          cases section_ <;> exact List.all_eq_true.mp rfl
        rw [letters c inside] at other
        cases other

/-- The parts at `:` and the section that they name. -/
theorem split_section (module : Ident) (section_ : Option DataSection) :
    ∃ listed, split (sectionWritten module section_) ':' = module.text :: listed ∧
      parseSection (module.text :: listed) = .ok (DataSection.limit section_) := by
  have colon : ':' ∉ module.text := module.not_mem (by decide)
  cases section_ with
  | none =>
    refine ⟨[], ?_, rfl⟩
    rw [sectionWritten, Option.elim, List.append_nil, split_of_not_mem colon,
      if_neg module.nonempty]
  | some section_ =>
    refine ⟨[section_.written], ?_, by cases section_ <;> rfl⟩
    have written : section_.written ≠ [] ∧ ':' ∉ section_.written := by
      cases section_ <;> decide
    exact split_pair module.nonempty written.1 colon written.2

/-- The parts at `<` or `>`, and which of them it is. -/
theorem split_bound (module : Ident) (section_ : Option DataSection)
    (bound : Option (VersionBound × Ident)) :
    (if find ['>'] (moduleWritten module section_ bound) ≠ none then
        (split (moduleWritten module section_ bound) '>', (2 : BitVec 8))
      else if find ['<'] (moduleWritten module section_ bound) ≠ none then
        (split (moduleWritten module section_ bound) '<', 1)
      else ([moduleWritten module section_ bound], 0)) =
    (sectionWritten module section_ :: bound.elim [] fun bound => [bound.2.text],
      VersionBound.boundary bound) := by
  have nonempty : sectionWritten module section_ ≠ [] :=
    List.append_ne_nil_of_left_ne_nil module.nonempty _
  have above : '>' ∉ sectionWritten module section_ :=
    not_mem_sectionWritten (by decide) (by decide) module section_
  have below : '<' ∉ sectionWritten module section_ :=
    not_mem_sectionWritten (by decide) (by decide) module section_
  match bound with
  | none =>
    have written : moduleWritten module section_ none = sectionWritten module section_ :=
      List.append_nil _
    rw [written, find_of_not_mem above, find_of_not_mem below]
    rfl
  | some (.since, version) =>
    have written : moduleWritten module section_ (some (.since, version)) =
        sectionWritten module section_ ++ '>' :: version.text := rfl
    rw [written, find_append_cons above, if_pos (Option.some_ne_none _),
      split_pair nonempty version.nonempty above (version.not_mem (by decide))]
    rfl
  | some (.older, version) =>
    have written : moduleWritten module section_ (some (.older, version)) =
        sectionWritten module section_ ++ '<' :: version.text := rfl
    have absent : '>' ∉ sectionWritten module section_ ++ '<' :: version.text := by
      rw [List.mem_append, List.mem_cons, not_or, not_or]
      exact ⟨above, by decide, version.not_mem (by decide)⟩
    rw [written, find_of_not_mem absent, find_append_cons below, if_neg (not_not_intro rfl),
      if_pos (Option.some_ne_none _),
      split_pair nonempty version.nonempty below (version.not_mem (by decide))]
    rfl

/-- What a data block is made of is known, or something is reported before the addend is read. -/
theorem parseBlock_eq (state : ParserState) (name pattern module : Ident)
    (section_ : Option DataSection) (bound : Option (VersionBound × Ident))
    (addend : Option (Text × Text)) :
    (∃ message, blockParts modules pattern module bound = none ∧
      parseBlock modules state name.text pattern.text ['@'] (moduleWritten module section_ bound)
        addend = .error (.syntaxError message)) ∨
    ∃ block, blockParts modules pattern module bound = some block ∧
      parseBlock modules state name.text pattern.text ['@'] (moduleWritten module section_ bound)
        addend = parseAddend addend >>= fun offset =>
          .ok (state.add ⟨cStr name.text, .dataBlock (BitVec.ofNat 32 block.moduleIdx) block.data
            block.dataMask offset (VersionBound.boundary bound) (DataSection.limit section_)
            (BitVec.ofNat 32 block.versionBoundary), [], true⟩) := by
  obtain ⟨listed, parts, limit⟩ := split_section module section_
  have pair : ¬ (VersionBound.boundary bound ≠ 0 ∧
      (sectionWritten module section_ ::
        bound.elim [] fun bound => [bound.2.text]).length ≠ 2) := by
    match bound with
    | none => exact fun both => both.1 rfl
    | some (_, _) => exact fun both => both.2 rfl
  rw [parseBlock, blockParts]
  cases hexStringToBytesWithMatch pattern.text with
  | none => exact .inl ⟨_, rfl, rfl⟩
  | some bytes =>
    simp only [ne_eq, not_true_eq_false, if_false, split_bound, if_neg pair, List.headD_cons, parts,
      limit]
    cases modules.getModuleIndex module.text with
    | none => exact .inl ⟨_, rfl, rfl⟩
    | some moduleIdx =>
      match bound with
      | none => exact .inr ⟨_, rfl, rfl⟩
      | some (boundary, version) =>
        simp only [Option.elim]
        cases modules.getVersionIndex module.text version.text with
        | none => exact .inl ⟨_, rfl, rfl⟩
        | some versionIndex => exact .inr ⟨_, rfl, rfl⟩

/-- An addend as it is in the parts of a line. -/
def addendParts (addend : Option (Sign × Number)) : Option (Text × Text) :=
  addend.map fun (sign, number) => (sign.written, number.written)

theorem addend_verdict (addend : Option (Sign × Number)) :
    Verdict Eq (AddendFits addend) (parseAddend (addendParts addend))
      (addend.elim (some 0) fun (sign, number) => number.signed sign) := by
  match addend with
  | none =>
    refine .described ?_ rfl
    rintro sign number ⟨⟩
  | some (sign, number) =>
    have fits : number.Fits (2 ^ 31) ↔ AddendFits (some (sign, number)) := by
      refine ⟨?_, fun fits => fits sign number rfl⟩
      rintro fits sign' number' ⟨⟩
      exact fits
    have read : parseAddend (addendParts (some (sign, number))) =
        parseNumber strtoul "not a number" number.written >>= fun offset =>
          match sign with
          | .plus => .ok offset
          | .minus => negate offset := by
      cases sign <;> rfl
    rw [read]
    exact (signed_verdict sign number "not a number").congr fits

theorem parseParts_dataBlock (state : ParserState) (name pattern module : Ident)
    (section_ : Option DataSection) (bound : Option (VersionBound × Ident))
    (addend : Option (Sign × Number)) :
    parseParts modules state
        (Statement.dataBlock name pattern module section_ bound addend).parts =
      parseBlock modules state name.text pattern.text ['@'] (moduleWritten module section_ bound)
        (addendParts addend) := by
  rw [Statement.parts]
  cases addend with
  | none =>
    rw [Option.elim, List.append_nil, parseParts, name.not_marker]
    rfl
  | some addend =>
    rw [Option.elim, List.cons_append, parseParts, name.not_marker]
    rfl

theorem dataBlock_read (name pattern module : Ident) (section_ : Option DataSection)
    (bound : Option (VersionBound × Ident)) (addend : Option (Sign × Number)) :
    Verdict (Continues symbols)
      ((Statement.dataBlock name pattern module section_ bound addend).Fair modules latest)
      (parseParts modules (stateOf latest symbols)
        (Statement.dataBlock name pattern module section_ bound addend).parts)
      ((Statement.dataBlock name pattern module section_ bound addend).describe modules
        latest) := by
  rw [parseParts_dataBlock, Statement.describe]
  rcases parseBlock_eq modules (stateOf latest symbols) name pattern module section_ bound
    (addendParts addend) with ⟨message, unknown, read⟩ | ⟨block, known, read⟩
  · rw [unknown, read]
    refine .rejected fun known => ?_
    rw [unknown] at known
    cases known
  · have fair : AddendFits addend ↔
        (Statement.dataBlock name pattern module section_ bound addend).Fair modules latest :=
      ⟨fun fits _ => fits, fun fits => fits (Option.isSome_of_eq_some known)⟩
    rw [known, read]
    refine ((addend_verdict addend).bind ?_).congr fair
    rintro offset _ rfl
    rfl

/-- A fair statement is read as it is described, and no other is. -/
theorem statement_read (statement : Statement) :
    Verdict (Continues symbols) (statement.Fair modules latest)
      (parseParts modules (stateOf latest symbols) statement.parts)
      (statement.describe modules latest) := by
  cases statement with
  | marker module versions => exact marker_read modules latest symbols module versions
  | immediate name offset => exact immediate_read modules latest symbols name offset
  | dynamic name target => exact dynamic_read modules latest symbols name target
  | compact name => exact compact_read modules latest symbols name
  | dataBlock name pattern module section_ bound addend =>
    exact dataBlock_read modules latest symbols name pattern module section_ bound addend
  | arithmetic name source sign addend =>
    exact arithmetic_read modules latest symbols name source sign addend
  | readAdrpGlobal name source offset =>
    exact readAdrpGlobal_read modules latest symbols name source offset

end Hakkun.Sail
