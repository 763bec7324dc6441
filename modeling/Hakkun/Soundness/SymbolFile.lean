import Hakkun.Soundness.SymbolStatement
import Hakkun.Soundness.Tokenizer

/-! # What the parser of symbol files reads

Each line is cut into the words of its statement. From the statements the result is lifted to files,
by the first statement that is not read as it is described.
-/

namespace Hakkun.Sail

open Machine.Core (Transducer)

/-! ## Words -/

theorem isWordChar_of_number {c : Char} (chars : isNumberChar c = true) : isWordChar c = true :=
  (Bool.and_eq_true _ _ ▸ chars).1

theorem isNumberChar_of_name {c : Char} (chars : isNameChar c = true) : isNumberChar c = true :=
  (Bool.and_eq_true _ _ ▸ chars).1

/-- A text of words and spaces. -/
def Wordy (text : Text) : Prop := ∀ c ∈ text, c = ' ' ∨ isWordChar c = true

theorem wordy_cons {c : Char} {text : Text} :
    Wordy (c :: text) ↔ (c = ' ' ∨ isWordChar c = true) ∧ Wordy text :=
  List.forall_mem_cons

private theorem ne_of_wordy {c d : Char} (chars : c = ' ' ∨ isWordChar c = true)
    (other : isWordChar d = false) (space : d ≠ ' ') : c ≠ d := by
  rintro rfl
  rcases chars with same | word
  · exact space same
  · rw [other] at word
    cases word

/-- Only the comment is one. -/
theorem body_of_wordy {text ending : Text} (wordy : Wordy text)
    (marker : ending = [] ∨ ['/', '/'].isPrefixOf ending = true) :
    body (text ++ ending) = text ∧ comment (text ++ ending) = ending := by
  induction text with
  | nil =>
    rcases marker with rfl | starts
    · exact ⟨rfl, rfl⟩
    · cases ending with
      | nil => cases starts
      | cons c ending =>
        have here : commentAt (c :: ending) = true := by rw [commentAt, starts, Bool.or_true]
        rw [List.nil_append, body, comment, if_pos here, if_pos here]
        exact ⟨rfl, rfl⟩
  | cons c text ih =>
    rw [wordy_cons] at wordy
    have hash : c ≠ '#' := ne_of_wordy wordy.1 (by decide) (by decide)
    have slash : c ≠ '/' := ne_of_wordy wordy.1 (by decide) (by decide)
    have none : ¬ commentAt (c :: (text ++ ending)) = true := by
      simp [commentAt, List.isPrefixOf, Ne.symm hash, Ne.symm slash]
    obtain ⟨before, after⟩ := ih wordy.2
    rw [List.cons_append, body, comment, if_neg none, if_neg none, before]
    exact ⟨rfl, after⟩

/-- Without braces the phase stays as it is. -/
theorem phaseAfter_of_wordy {text : Text} (wordy : Wordy text) :
    phaseAfter text = some (.outside true) := by
  rw [phaseAfter]
  induction text with
  | nil => rfl
  | cons c text ih =>
    rw [wordy_cons] at wordy
    have opening : c ≠ '{' := ne_of_wordy wordy.1 (by decide) (by decide)
    have closing : c ≠ '}' := ne_of_wordy wordy.1 (by decide) (by decide)
    have stays : Phase.next (.outside true) c = some (.outside true) := by
      rw [Phase.next]
      rcases kind_cases c with ⟨-, kind⟩ | ⟨same, -⟩ | ⟨same, -⟩ | ⟨-, kind⟩
      · rw [kind]; rfl
      · exact (opening same).elim
      · exact (closing same).elim
      · rw [kind]; rfl
    rw [List.foldlM_cons, stays]
    exact ih wordy.2

theorem tokenizer_word {word : Text} (chars : ∀ c ∈ word, isWordChar c = true) (held : Text) :
    tokenizer.emitted (.outside held) word = [] ∧
      tokenizer.after (.outside held) word = .outside (held ++ word) := by
  apply tokenizer.collects Place.outside
  intro held c member
  apply tokenizer_outside
  · rintro rfl
    cases chars _ member
  · rintro rfl
    cases chars _ member

theorem run_gap {gap : Text} (spaces : ∀ c ∈ gap, c = ' ') (rest : Text) :
    tokenizer.run (.outside []) (gap ++ rest) = tokenizer.run (.outside []) rest := by
  induction gap with
  | nil => rfl
  | cons c gap ih =>
    rw [List.forall_mem_cons] at spaces
    obtain ⟨rfl, spaces⟩ := spaces
    rw [List.cons_append, tokenizer.run_cons]
    exact ih spaces

/-- Words that can be parts of a line. -/
def Words (words : List Text) : Prop := ∀ word ∈ words, word ≠ [] ∧ ∀ c ∈ word, isWordChar c = true

theorem run_layout {words : List Text} {text : Text} (layout : Layout words text)
    (valid : Words words) : tokenizer.run (.outside []) text = words := by
  induction layout with
  | nil spaces =>
    have run := run_gap spaces []
    rw [List.append_nil] at run
    exact run
  | @cons gap word rest words spaces more apart ih =>
    rw [Words, List.forall_mem_cons] at valid
    obtain ⟨⟨nonempty, chars⟩, valid⟩ := valid
    obtain ⟨emits, stays⟩ := tokenizer_word chars []
    rw [List.append_assoc, run_gap spaces, tokenizer.run_append, emits, stays, List.nil_append,
      List.nil_append]
    have later := ih valid
    rcases apart with rfl | space
    · rw [tokenizer.run_nil] at later ⊢
      rw [← later]
      exact pushPart_of_ne nonempty
    · obtain ⟨rest, rfl⟩ := List.head?_eq_some_iff.mp space
      rw [tokenizer.run_cons] at later ⊢
      rw [tokenizer_outside_space, pushPart_of_ne nonempty]
      exact congrArg (word :: ·) later

theorem wordy_layout {words : List Text} {text : Text} (layout : Layout words text)
    (valid : Words words) : Wordy text := by
  induction layout with
  | nil spaces => exact fun c member => .inl (spaces c member)
  | cons spaces more apart ih =>
    rw [Words, List.forall_mem_cons] at valid
    intro c member
    rcases List.mem_append.mp member with before | after
    · rcases List.mem_append.mp before with gap | word
      · exact .inl (spaces c gap)
      · exact .inr (valid.1.2 c word)
    · exact ih valid.2 c after

/-- A line is cut into its words. -/
theorem splitBy_of_written {words : List Text} {line : Text} (written : WrittenAs words line)
    (valid : Words words) : splitByWhitespaceAndRemoveComments line = words := by
  obtain ⟨before, ending, rfl, layout, marker, -, -⟩ := written
  obtain ⟨same, ends⟩ := body_of_wordy (wordy_layout layout valid) marker
  have careful : CarefulLine (before ++ ending) := by
    refine ⟨.outside true, ?_, rfl, fun some_ => ⟨?_, rfl⟩⟩
    · rw [same]
      exact phaseAfter_of_wordy (wordy_layout layout valid)
    · rw [ends] at some_ ⊢
      exact .inl (marker.resolve_left some_)
  rw [tokenizes_of_careful careful _ ⟨_, .refl, .inr (body_append_comment _).symm⟩, tokens, same,
    run_layout layout valid]

/-! ## The words of a statement -/

theorem words_nil : Words [] := fun _ member => (List.not_mem_nil member).elim

theorem words_cons {word : Text} {words : List Text} :
    Words (word :: words) ↔ (word ≠ [] ∧ ∀ c ∈ word, isWordChar c = true) ∧ Words words :=
  List.forall_mem_cons

theorem chars_cons {c : Char} {text : Text} (char : isWordChar c = true)
    (chars : ∀ d ∈ text, isWordChar d = true) : ∀ d ∈ c :: text, isWordChar d = true :=
  List.forall_mem_cons.mpr ⟨char, chars⟩

theorem chars_append {one two : Text} (first : ∀ c ∈ one, isWordChar c = true)
    (second : ∀ c ∈ two, isWordChar c = true) : ∀ c ∈ one ++ two, isWordChar c = true :=
  List.forall_mem_append.mpr ⟨first, second⟩

theorem Ident.word (ident : Ident) :
    ident.text ≠ [] ∧ ∀ c ∈ ident.text, isWordChar c = true :=
  ⟨ident.nonempty, fun c member =>
    isWordChar_of_number (isNumberChar_of_name (ident.chars c member))⟩

theorem Number.word (number : Number) :
    number.written ≠ [] ∧ ∀ c ∈ number.written, isWordChar c = true := by
  have digits : ∀ c ∈ number.text, isWordChar c = true := fun c member =>
    isWordChar_of_number (number.chars c member)
  exact ⟨List.cons_ne_nil _ _, chars_cons (by decide) (chars_cons (by decide) digits)⟩

theorem versionsWritten_chars {before : Char} (char : isWordChar before = true)
    (versions : List Ident) : ∀ c ∈ versionsWritten before versions, isWordChar c = true := by
  induction versions generalizing before with
  | nil => exact fun c member => (List.not_mem_nil member).elim
  | cons version versions ih =>
    exact chars_append (chars_cons char version.word.2) (ih (by decide))

theorem moduleWritten_chars (module : Ident) (section_ : Option DataSection)
    (bound : Option (VersionBound × Ident)) :
    ∀ c ∈ moduleWritten module section_ bound, isWordChar c = true := by
  apply chars_append
  apply chars_append module.word.2
  · cases section_ with
    | none => exact fun c member => (List.not_mem_nil member).elim
    | some section_ => cases section_ <;> exact List.all_eq_true.mp rfl
  · match bound with
    | none => exact fun c member => (List.not_mem_nil member).elim
    | some (bound, version) => exact chars_cons (by cases bound <;> decide) version.word.2

theorem Sign.word (sign : Sign) :
    sign.written ≠ [] ∧ ∀ c ∈ sign.written, isWordChar c = true := by
  cases sign <;> exact ⟨List.cons_ne_nil _ _, List.all_eq_true.mp rfl⟩

/-- The parts of a statement are words. -/
theorem words_parts (statement : Statement) : Words statement.parts := by
  have equals : ['='] ≠ [] ∧ ∀ c ∈ ['='], isWordChar c = true :=
    ⟨List.cons_ne_nil _ _, List.all_eq_true.mp rfl⟩
  have at_ : ['@'] ≠ [] ∧ ∀ c ∈ ['@'], isWordChar c = true :=
    ⟨List.cons_ne_nil _ _, List.all_eq_true.mp rfl⟩
  have closing : ∀ c ∈ [')'], isWordChar c = true := List.all_eq_true.mp rfl
  have call : ∀ source : Ident, ∀ c ∈ "readAdrpGlobal(".toList ++ source.text,
      isWordChar c = true := fun source =>
    chars_append (List.all_eq_true.mp rfl) source.word.2
  have calls : ∀ source : Ident, "readAdrpGlobal(".toList ++ source.text ≠ [] := fun source =>
    List.append_ne_nil_of_right_ne_nil _ source.nonempty
  cases statement with
  | marker module versions =>
    have colon : isWordChar ':' = true := rfl
    have chars := chars_append module.word.2 (versionsWritten_chars colon versions)
    exact words_cons.mpr ⟨⟨List.cons_ne_nil _ _, chars_cons rfl chars⟩, words_nil⟩
  | immediate name offset =>
    rw [Statement.parts, words_cons, words_cons, words_cons]
    exact ⟨name.word, equals, offset.word, words_nil⟩
  | dynamic name target =>
    have quote : ∀ c ∈ ['"'], isWordChar c = true := List.all_eq_true.mp rfl
    have chars := chars_cons (c := '"') rfl (chars_append target.word.2 quote)
    rw [Statement.parts, words_cons, words_cons, words_cons]
    exact ⟨name.word, equals, ⟨List.cons_ne_nil _ _, chars⟩, words_nil⟩
  | compact name => exact words_cons.mpr ⟨name.word, words_nil⟩
  | dataBlock name pattern module section_ bound addend =>
    have nonempty : moduleWritten module section_ bound ≠ [] :=
      List.append_ne_nil_of_left_ne_nil (List.append_ne_nil_of_left_ne_nil module.nonempty _) _
    rw [Statement.parts, List.cons_append, List.cons_append, List.cons_append, List.cons_append,
      List.cons_append, List.nil_append, words_cons, words_cons, words_cons, words_cons, words_cons]
    refine ⟨name.word, equals, pattern.word, at_,
      ⟨nonempty, moduleWritten_chars module section_ bound⟩, ?_⟩
    rcases addend with _ | ⟨sign, addend⟩
    · exact words_nil
    · exact words_cons.mpr ⟨sign.word, words_cons.mpr ⟨addend.word, words_nil⟩⟩
  | arithmetic name source sign addend =>
    rw [Statement.parts, words_cons, words_cons, words_cons, words_cons, words_cons]
    exact ⟨name.word, equals, source.word, sign.word, addend.word, words_nil⟩
  | readAdrpGlobal name source offset =>
    rcases offset with _ | ⟨_ | _, offset⟩
    · rw [Statement.parts, words_cons, words_cons, words_cons]
      exact ⟨name.word, equals, ⟨List.append_ne_nil_of_left_ne_nil (calls source) _,
        chars_append (call source) closing⟩, words_nil⟩
    · have offset := chars_cons (c := ',') rfl (chars_append offset.word.2 closing)
      rw [Statement.parts, words_cons, words_cons, words_cons]
      exact ⟨name.word, equals, ⟨List.append_ne_nil_of_left_ne_nil (calls source) _,
        chars_append (call source) offset⟩, words_nil⟩
    · have comma : ∀ c ∈ [','], isWordChar c = true := List.all_eq_true.mp rfl
      rw [Statement.parts, words_cons, words_cons, words_cons, words_cons]
      exact ⟨name.word, equals, ⟨List.append_ne_nil_of_left_ne_nil (calls source) _,
        chars_append (call source) comma⟩, ⟨List.append_ne_nil_of_left_ne_nil offset.word.1 _,
        chars_append offset.word.2 closing⟩, words_nil⟩

/-! ## Lines -/

/-- The fair statements of a file, up to the first one that describes nothing. -/
def FairFile (modules : ModuleList) : Option Marker → List (Option Statement) → Prop
  | _, [] => True
  | latest, none :: rest => FairFile modules latest rest
  | latest, some statement :: rest => statement.Fair modules latest ∧
    ∀ next symbols, statement.describe modules latest = some (next, symbols) →
      FairFile modules next rest

/-- The symbols are the described ones, or the syntax error is reported that is described. -/
inductive Agrees : Except (ℕ × Failure) (List Symbol) → Except ℕ (List Symbol) → Prop
  | read (symbols : List Symbol) : Agrees (.ok symbols) (.ok symbols)
  | reported (line : ℕ) (message : Text) :
    Agrees (.error (line, .syntaxError message)) (.error line)

section Lines

variable (modules : ModuleList)

theorem parseLines_error {line : ℕ} {state : ParserState} {lines : List Text} {at_ : ℕ}
    {failure : Failure} (fails : parseLines modules line state lines = .error (at_, failure)) :
    line < at_ := by
  induction lines generalizing line state with
  | nil => cases fails
  | cons text rest ih =>
    rw [parseLines] at fails
    cases read : parseParts modules state (splitByWhitespaceAndRemoveComments text) with
    | error failure =>
      rw [read] at fails
      cases fails
      exact Nat.lt_succ_self line
    | ok next =>
      rw [read] at fails
      exact (Nat.lt_succ_self line).trans (ih fails)

theorem describe_error {line : ℕ} {latest : Option Marker} {statements : List (Option Statement)}
    {at_ : ℕ} (fails : describe modules line latest statements = .error at_) : line < at_ := by
  induction statements generalizing line latest at_ with
  | nil => cases fails
  | cons statement rest ih =>
    cases statement with
    | none => exact (Nat.lt_succ_self line).trans (ih fails)
    | some statement =>
      rw [describe] at fails
      cases described : statement.describe modules latest with
      | none =>
        rw [described] at fails
        cases fails
        exact Nat.lt_succ_self line
      | some next =>
        rw [described] at fails
        cases later : describe modules (line + 1) next.1 rest with
        | error at' =>
          simp only [later, Except.map] at fails
          cases fails
          exact (Nat.lt_succ_self line).trans (ih later)
        | ok symbols =>
          simp only [later, Except.map] at fails
          cases fails

theorem SourceLine.parts (source : SourceLine) :
    splitByWhitespaceAndRemoveComments source.text = source.statement.elim [] Statement.parts := by
  refine splitBy_of_written source.written ?_
  cases source.statement with
  | none => exact words_nil
  | some statement => exact words_parts statement

/-- An error after a line is not reported at it. -/
theorem not_agrees_later {line : ℕ} {state : ParserState} {lines : List Text} :
    ¬ Agrees ((parseLines modules line state lines).map ParserState.symbols) (.error line) := by
  intro agrees
  cases read : parseLines modules line state lines with
  | ok state =>
    rw [read] at agrees
    cases agrees
  | error at_ =>
    have later := parseLines_error modules read
    rw [read] at agrees
    cases agrees
    exact Nat.lt_irrefl _ later

theorem not_agrees_earlier {line : ℕ} {failure : Failure} {latest : Option Marker}
    {statements : List (Option Statement)} {f : List Symbol → List Symbol} :
    ¬ Agrees (.error (line, failure)) ((describe modules line latest statements).map f) := by
  intro agrees
  cases described : describe modules line latest statements with
  | ok symbols =>
    rw [described] at agrees
    cases agrees
  | error at_ =>
    have later := describe_error modules described
    rw [described] at agrees
    cases agrees
    exact Nat.lt_irrefl _ later

private theorem map_map_append (symbols more : List Symbol) (result : Except ℕ (List Symbol)) :
    (result.map (more ++ ·)).map (symbols ++ ·) = result.map (symbols ++ more ++ ·) := by
  cases result with
  | error line => rfl
  | ok rest => exact congrArg Except.ok (List.append_assoc symbols more rest).symm

/-- The lines of a file are read as described up to the end or the first syntax error if and only if
the statements until there are fair. -/
theorem parseLines_agrees_iff (file : List SourceLine) (line : ℕ) (latest : Option Marker)
    (symbols : List Symbol) :
    Agrees ((parseLines modules line (stateOf latest symbols) (file.map SourceLine.text)).map
        ParserState.symbols)
      ((describe modules line latest (file.map SourceLine.statement)).map (symbols ++ ·)) ↔
    FairFile modules latest (file.map SourceLine.statement) := by
  induction file generalizing line latest symbols with
  | nil =>
    refine iff_of_true ?_ trivial
    rw [List.map_nil, List.map_nil, parseLines, describe]
    simp only [Except.map, List.append_nil]
    exact .read symbols
  | cons source file ih =>
    rw [List.map_cons, List.map_cons, parseLines, source.parts]
    cases source.statement with
    | none => exact ih (line + 1) latest symbols
    | some statement =>
      rw [Option.elim, describe, FairFile]
      have verdict := statement_read modules latest symbols statement
      revert verdict
      generalize parseParts modules (stateOf latest symbols) statement.parts = result
      generalize statement.describe modules latest = description
      intro verdict
      cases verdict with
      | @described state next fair continues =>
        obtain ⟨next, more⟩ := next
        rw [Continues] at continues
        subst continues
        simp only [map_map_append]
        rw [ih]
        refine ⟨fun later => ⟨fair, ?_⟩, fun file => file.2 next more rfl⟩
        rintro _ _ ⟨⟩
        exact later
      | rejected fair =>
        refine iff_of_true (.reported _ _) ⟨fair, ?_⟩
        rintro _ _ ⟨⟩
      | accepted unfair => exact iff_of_false (not_agrees_later modules) fun file => unfair file.1
      | refused unfair =>
        refine iff_of_false (fun agrees => ?_) fun file => unfair file.1
        simp only [map_map_append] at agrees
        exact not_agrees_earlier modules agrees
      | undefined unfair =>
        refine iff_of_false (fun agrees => ?_) fun file => unfair file.1
        cases agrees

end Lines

/-! ## Texts of files -/

theorem find_crlf_of_not_mem {text : Text} (absent : '\r' ∉ text) :
    find ['\r', '\n'] text = none := by
  induction text with
  | nil => rfl
  | cons c text ih =>
    rw [List.mem_cons, not_or] at absent
    simp [find, List.isPrefixOf, absent.1, ih absent.2]

theorem find_crlf {before : Text} (absent : '\r' ∉ before) (after : Text) :
    find ['\r', '\n'] (before ++ '\r' :: '\n' :: after) = some before.length := by
  induction before with
  | nil => simp [find, List.isPrefixOf]
  | cons c before ih =>
    rw [List.mem_cons, not_or] at absent
    simp [find, List.isPrefixOf, absent.1, ih absent.2]

theorem removeCrlfLoop_of_not_mem {text : Text} (absent : '\r' ∉ text) (fuel : ℕ) :
    removeCrlfLoop fuel text = text := by
  cases fuel with
  | zero => rfl
  | succ fuel => rw [removeCrlfLoop, find_crlf_of_not_mem absent]

/-- A turn at an end of line. -/
theorem removeCrlfLoop_succ {before : Text} (absent : '\r' ∉ before) (after : Text) (fuel : ℕ) :
    removeCrlfLoop (fuel + 1) (before ++ '\r' :: '\n' :: after) =
      removeCrlfLoop fuel (before ++ '\n' :: after) := by
  have drop : (before ++ '\r' :: '\n' :: after).drop (before.length + 2) = after := by
    rw [List.drop_append]
    simp
  rw [removeCrlfLoop, find_crlf absent after]
  simp only [List.take_left, drop]

theorem SourceLine.no_ends (source : SourceLine) : '\n' ∉ source.text ∧ '\r' ∉ source.text := by
  obtain ⟨before, comment, same, layout, -, newline, return_⟩ := source.written
  have wordy : Wordy before := by
    refine wordy_layout layout ?_
    cases source.statement with
    | none => exact words_nil
    | some statement => exact words_parts statement
  rw [same, List.mem_append, List.mem_append, not_or, not_or]
  refine ⟨⟨fun member => ?_, newline⟩, fun member => ?_, return_⟩
  · rcases wordy _ member with space | word
    · cases space
    · cases word
  · rcases wordy _ member with space | word
    · cases space
    · cases word

/-- Every line ends with one character then; `done` is what is before the lines. -/
theorem removeCrlfLoop_fileText (file : List SourceLine) {fuel : ℕ} {done : Text}
    (clean : '\r' ∉ done) (enough : (fileText file).length ≤ fuel) :
    removeCrlfLoop fuel (done ++ fileText file) =
      done ++ List.intercalate ['\n'] (file.map SourceLine.text) := by
  induction file generalizing fuel done with
  | nil => exact removeCrlfLoop_of_not_mem (by simpa [fileText] using clean) fuel
  | cons source rest ih =>
    have absent : '\r' ∉ done ++ source.text := by
      rw [List.mem_append, not_or]
      exact ⟨clean, source.no_ends.2⟩
    cases rest with
    | nil => exact (removeCrlfLoop_of_not_mem absent fuel).trans (by simp)
    | cons next rest =>
      have absent' : '\r' ∉ done ++ source.text ++ ['\n'] := by
        rw [List.mem_append, not_or]
        exact ⟨absent, by decide⟩
      have text : fileText (source :: next :: rest) = source.text ++
          (if source.crlf then ['\r', '\n'] else ['\n']) ++ fileText (next :: rest) := rfl
      rw [text] at enough ⊢
      rw [List.map_cons, List.map_cons, List.intercalate_cons_cons, ← List.map_cons]
      cases crlf : source.crlf with
      | false =>
        have fits : (fileText (next :: rest)).length ≤ fuel := by
          rw [List.length_append, List.length_append] at enough
          omega
        have later := ih absent' fits
        simpa [crlf] using later
      | true =>
        rw [crlf] at enough
        simp only [if_true, List.length_append, List.length_cons, List.length_nil] at enough
        obtain ⟨less, rfl⟩ : ∃ less, fuel = less + 1 := ⟨fuel - 1, by omega⟩
        have fits : (fileText (next :: rest)).length ≤ less := by omega
        have later := ih absent' fits
        have turn := removeCrlfLoop_succ absent (fileText (next :: rest)) less
        simp only [List.append_assoc, List.cons_append, List.nil_append, if_true] at turn later ⊢
        rw [turn, later]

theorem removeCrlf_fileText (file : List SourceLine) :
    removeCrlf (fileText file) = List.intercalate ['\n'] (file.map SourceLine.text) :=
  removeCrlfLoop_fileText file List.not_mem_nil (le_refl _)

variable (modules : ModuleList)

/-- A line without characters has nothing to read. -/
theorem parseLines_blank (lines : List Text) (line : ℕ) (state : ParserState) :
    parseLines modules line state (lines ++ [[]]) = parseLines modules line state lines := by
  induction lines generalizing line state with
  | nil => rfl
  | cons text lines ih =>
    rw [List.cons_append, parseLines, parseLines]
    cases parseParts modules state (splitByWhitespaceAndRemoveComments text) with
    | error failure => rfl
    | ok next => exact ih (line + 1) next

/-- The lines are read as they are separated. -/
theorem parseLines_getLines (texts : List Text) (ends : ∀ text ∈ texts, '\n' ∉ text) (line : ℕ)
    (state : ParserState) :
    parseLines modules line state (getLines (List.intercalate ['\n'] texts)) =
      parseLines modules line state texts := by
  rcases List.eq_nil_or_concat texts with rfl | ⟨before, last, rfl⟩
  · rfl
  · rw [List.concat_eq_append] at ends ⊢
    have cut : (List.intercalate ['\n'] (before ++ [last])).splitOn '\n' = before ++ [last] :=
      List.splitOn_intercalate '\n' ends (by simp)
    rw [getLines, cut]
    cases last with
    | nil =>
      simp only [List.getLast?_concat, if_true, List.dropLast_concat]
      exact (parseLines_blank modules before line state).symm
    | cons c last =>
      simp only [List.getLast?_concat, Option.some.injEq, reduceCtorEq, if_false]

/-- The symbols of a file are as they are described if and only if each statement is fair, up to
the first that describes nothing. -/
theorem parses_iff_fair (modules : ModuleList) (file : List SourceLine) :
    Agrees (parseSymbolFile modules (fileText file))
      (describe modules 0 none (file.map SourceLine.statement)) ↔
    FairFile modules none (file.map SourceLine.statement) := by
  have ends : ∀ text ∈ file.map SourceLine.text, '\n' ∉ text := by
    intro text member
    obtain ⟨source, -, rfl⟩ := List.mem_map.mp member
    exact source.no_ends.1
  have same := parseLines_agrees_iff modules file 0 none []
  rw [← parseLines_getLines modules _ ends, ← removeCrlf_fileText] at same
  have described : (describe modules 0 none (file.map SourceLine.statement)).map ([] ++ ·) =
      describe modules 0 none (file.map SourceLine.statement) := by
    cases describe modules 0 none (file.map SourceLine.statement) <;> rfl
  rw [described] at same
  exact same

/-- `some_global_variable = readAdrpGlobal($some_adrp_ldr_instruction, 0x2)`, as documented. -/
def spacedOffset : SourceLine where
  statement := some (.readAdrpGlobal
    ⟨"some_global_variable".toList, List.cons_ne_nil _ _, List.all_eq_true.mp rfl⟩
    ⟨"$some_adrp_ldr_instruction".toList, List.cons_ne_nil _ _, List.all_eq_true.mp rfl⟩
    (some (true, ⟨['2'], List.all_eq_true.mp rfl⟩)))
  text := "some_global_variable = readAdrpGlobal($some_adrp_ldr_instruction, 0x2)".toList
  written := by
    have none : ∀ c ∈ ([] : Text), c = ' ' := fun c member => (List.not_mem_nil member).elim
    have gap : ∀ c ∈ [' '], c = ' ' := List.forall_mem_singleton.mpr rfl
    have number := @Layout.cons [' '] "0x2)".toList [] [] gap (.nil none) (.inl rfl)
    have call := @Layout.cons [' '] "readAdrpGlobal($some_adrp_ldr_instruction,".toList _ _ gap
      number (.inr rfl)
    have equals := @Layout.cons [' '] ['='] _ _ gap call (.inr rfl)
    have layout := @Layout.cons [] "some_global_variable".toList _ _ none equals (.inr rfl)
    exact ⟨_, [], (List.append_nil _).symm, layout, .inl rfl, List.not_mem_nil, List.not_mem_nil⟩
  crlf := false

/-- The documented offset is a syntax error. -/
theorem not_parses : ¬ Agrees (parseSymbolFile [] (fileText [spacedOffset]))
    (describe [] 0 none ([spacedOffset].map SourceLine.statement)) := by
  intro agrees
  have read : parseSymbolFile [] (fileText [spacedOffset]) =
      .error (1, .syntaxError "not sure what this is".toList) := rfl
  rw [read] at agrees
  cases agrees

end Hakkun.Sail
