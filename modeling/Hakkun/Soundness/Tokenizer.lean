import Hakkun.Soundness.TokenScan
import Mathlib.Data.List.Induction
import Mathlib.Logic.Relation

/-! # Tokens of a line

What a line should be cut into is stated by its characters: words, and groups in braces whose spaces
are dropped. The tokenizer does so for a line and for all of its variants, with more spaces and
without its comment, exactly where no group is closed in the part that it was opened in, no group is
left open, and the comment stands apart from groups and is found by its marker.
-/

namespace Hakkun.Sail

open Machine.Core (Transducer)

/-! ## Specification -/

/-- In a word, or in a group. -/
inductive Place where
  | outside (word : Text)
  | inside (content : Text)

/-- A word ends at a space and at a brace; a group is what its braces hold but spaces. -/
def tokenizer : Transducer Place Char Text where
  next
    | .outside word, c =>
      if c = ' ' then (pushPart word, .outside [])
      else if c = '{' then (pushPart word, .inside [])
      else ([], .outside (word ++ [c]))
    | .inside content, c =>
      if c = ' ' then ([], .inside content)
      else if c = '}' then (pushPart content, .outside [])
      else ([], .inside (content ++ [c]))
  last
    | .outside word => pushPart word
    | .inside content => pushPart content

/-- The tokens of a line. -/
def tokens (line : Text) : List Text := tokenizer.run (.outside []) (body line)

/-- A place between two tokens or in a group: no word goes on there. -/
def Gap (before after : Text) : Prop :=
  ∀ word, tokenizer.after (.outside []) before = .outside word →
    word = [] ∨ after = [] ∨ after.head? = some ' ' ∨ after.head? = some '{'

/-- One more space. -/
def SpaceAdded (text more : Text) : Prop :=
  ∃ before after, text = before ++ after ∧ more = before ++ ' ' :: after ∧ Gap before after

/-- Additional spaces between tokens and in groups. -/
abbrev Spaced : Text → Text → Prop := Relation.ReflTransGen SpaceAdded

/-- A line with additional spaces, with its comment or without it. -/
def Variant (line variant : Text) : Prop :=
  ∃ text, Spaced (body line) text ∧ (variant = text ∨ variant = text ++ comment line)

/-- The function gives the tokens of the line for each variant of it. -/
def Tokenizes (line : Text) : Prop :=
  ∀ variant, Variant line variant → splitByWhitespaceAndRemoveComments variant = tokens line

@[simp] theorem tokenizer_outside_space (word : Text) :
    tokenizer.next (.outside word) ' ' = (pushPart word, .outside []) := rfl

@[simp] theorem tokenizer_outside_open (word : Text) :
    tokenizer.next (.outside word) '{' = (pushPart word, .inside []) := rfl

@[simp] theorem tokenizer_inside_space (content : Text) :
    tokenizer.next (.inside content) ' ' = ([], .inside content) := rfl

@[simp] theorem tokenizer_inside_close (content : Text) :
    tokenizer.next (.inside content) '}' = (pushPart content, .outside []) := rfl

theorem tokenizer_outside {c : Char} (space : c ≠ ' ') (brace : c ≠ '{') (word : Text) :
    tokenizer.next (.outside word) c = ([], .outside (word ++ [c])) := by
  simp [tokenizer, space, brace]

theorem tokenizer_inside {c : Char} (space : c ≠ ' ') (brace : c ≠ '}') (content : Text) :
    tokenizer.next (.inside content) c = ([], .inside (content ++ [c])) := by
  simp [tokenizer, space, brace]

/-! ### What the tokens are -/

/-- A space at a gap changes nothing. -/
theorem run_of_spaceAdded {text more : Text} (added : SpaceAdded text more) :
    tokenizer.run (.outside []) more = tokenizer.run (.outside []) text := by
  obtain ⟨before, after, rfl, rfl, gap⟩ := added
  rw [tokenizer.run_append, tokenizer.run_append, tokenizer.run_cons]
  congr 1
  cases place : tokenizer.after (.outside []) before with
  | inside content => rfl
  | outside word =>
    rw [tokenizer_outside_space]
    rcases gap word place with rfl | rfl | space | brace
    · rfl
    · exact List.append_nil _
    · obtain ⟨rest, rfl⟩ := List.head?_eq_some_iff.mp space
      rw [tokenizer.run_cons, tokenizer.run_cons]
      rfl
    · obtain ⟨rest, rfl⟩ := List.head?_eq_some_iff.mp brace
      rw [tokenizer.run_cons, tokenizer.run_cons]
      rfl

theorem run_of_spaced {text more : Text} (spaced : Spaced text more) :
    tokenizer.run (.outside []) more = tokenizer.run (.outside []) text := by
  induction spaced with
  | refl => rfl
  | tail _ added ih => rw [run_of_spaceAdded added, ih]

/-- A group that starts outside of others is one token, its pieces joined. -/
theorem run_group {before content : Text} {word : Text} (after : Text)
    (place : tokenizer.after (.outside []) before = .outside word) (closed : '}' ∉ content) :
    tokenizer.run (.outside []) (before ++ '{' :: (content ++ '}' :: after)) =
      tokenizer.run (.outside []) before ++ pushPart (content.filter fun c => c ≠ ' ') ++
        tokenizer.run (.outside []) after := by
  have collect (held : Text) : tokenizer.emitted (.inside held) content = [] ∧
      tokenizer.after (.inside held) content =
        .inside (held ++ content.filter fun c => c ≠ ' ') := by
    clear place
    induction content generalizing held with
    | nil => simp
    | cons c content ih =>
      rw [List.mem_cons, not_or] at closed
      rw [tokenizer.emitted_cons, tokenizer.after_cons]
      by_cases space : c = ' '
      · subst space
        simpa using ih closed.2 held
      · rw [tokenizer_inside space (Ne.symm closed.1),
          List.filter_cons_of_pos (by simpa using space)]
        simpa using ih closed.2 (held ++ [c])
  obtain ⟨emits, stays⟩ := collect []
  have whole : tokenizer.run (.outside []) before =
      tokenizer.emitted (.outside []) before ++ pushPart word := by
    rw [Transducer.run, place]
    rfl
  rw [whole, tokenizer.run_append, place, tokenizer.run_cons, tokenizer_outside_open,
    tokenizer.run_append, emits, stays, tokenizer.run_cons, tokenizer_inside_close]
  simp

/-- A character that no token can do without. -/
def Solid (c : Char) : Bool := c ≠ ' ' && c ≠ '{' && c ≠ '}'

def Place.held : Place → Text
  | .outside word => word
  | .inside content => content

theorem flatten_pushPart (part : Text) : (pushPart part).flatten = part := by
  cases part <;> simp [pushPart]

/-- No character is lost. -/
theorem solid_run (place : Place) (text : Text) :
    (tokenizer.run place text).flatten.filter Solid = (place.held ++ text).filter Solid := by
  induction text generalizing place with
  | nil => cases place <;> simp [tokenizer, flatten_pushPart, Place.held]
  | cons c rest ih =>
    rw [tokenizer.run_cons, List.flatten_append, List.filter_append, ih]
    cases place with
    | outside word =>
      by_cases space : c = ' '
      · subst space
        simp [flatten_pushPart, Place.held, Solid]
      · by_cases brace : c = '{'
        · subst brace
          simp [flatten_pushPart, Place.held, Solid]
        · simp [tokenizer_outside space brace, Place.held]
    | inside content =>
      by_cases space : c = ' '
      · subst space
        simp [Place.held, Solid]
      · by_cases brace : c = '}'
        · subst brace
          simp [flatten_pushPart, Place.held, Solid]
        · simp [tokenizer_inside space brace, Place.held]

/-! ## Phases

The condition is read off a line from the left. An empty group that is closed in its own part is
noticed by the loop only when a later part has a brace: nothing may follow then, but a stray brace
that the loop takes for the end of that group, and that is a word of its own.
-/

inductive Kind where
  | space | opening | closing | other

def kind (c : Char) : Kind :=
  if c = ' ' then .space else if c = '{' then .opening else if c = '}' then .closing else .other

/-- `clean` says that no brace was in this part, `empty` that nothing was in this group. -/
inductive Phase where
  | outside (clean : Bool)
  | fresh (empty : Bool)
  | settled (empty : Bool)
  /-- After an empty group in one part. -/
  | late
  /-- In a part after that. -/
  | apart
  /-- After a brace that stands at the start of such a part. -/
  | stray
  /-- After another group was opened. -/
  | reopened

namespace Phase

/-- Nothing if the line is not cut into its tokens, whatever follows. -/
def step : Phase → Kind → Option Phase
  | outside _, .space => some (outside true)
  | outside _, .opening => some (fresh true)
  | outside clean, _ => some (outside clean)
  | fresh empty, .space => some (settled empty)
  | fresh true, .closing => some late
  | fresh false, .closing => none
  | fresh _, _ => some (fresh false)
  | settled empty, .space => some (settled empty)
  | settled _, .closing => some (outside false)
  | settled _, _ => some (settled false)
  | late, .space => some apart
  | late, .opening => some reopened
  | late, _ => none
  | apart, .space => some apart
  | apart, .opening => some reopened
  | apart, .closing => some stray
  | apart, .other => none
  | stray, .space => some (outside true)
  | stray, .opening => some (fresh true)
  | stray, _ => none
  | reopened, .space => some reopened
  | reopened, _ => none

def next (phase : Phase) (c : Char) : Option Phase := phase.step (kind c)

/-- Whether the line may end here. -/
def ends : Phase → Bool
  | fresh empty => empty
  | settled empty => empty
  | _ => true

/-- Whether a comment may start here. -/
def clean : Phase → Bool
  | outside clean => clean
  | settled empty => empty
  | _ => false

end Phase

/-- The phase at the end of a text. -/
def phaseAfter (text : Text) : Option Phase := text.foldlM Phase.next (.outside true)

/-- The line is read without an objection to its end, and so is the start of its comment. -/
def CarefulLine (line : Text) : Prop :=
  ∃ phase, phaseAfter (body line) = some phase ∧ phase.ends = true ∧
    (comment line ≠ [] → Marked (comment line) ∧ phase.clean = true)

/-! ### What a phase says about both transducers -/

/-- The tokens that the loop is ahead by, and where it and the specification are. -/
inductive Related : Phase → List Text → Scan → Place → Prop
  | outside (clean : Bool) (word : Text) :
      Related (.outside clean) [] (.outside word) (.outside word)
  | fresh {empty : Bool} {content : Text} (same : empty = true ↔ content = []) :
      Related (.fresh empty) [] (.fresh content) (.inside content)
  | settled {empty : Bool} {content : Text} (same : empty = true ↔ content = []) :
      Related (.settled empty) [] (.settled content) (.inside content)
  | late : Related .late [] (.fresh ['}']) (.outside [])
  | apart : Related .apart [] (.settled ['}']) (.outside [])
  | stray : Related .stray [['}']] (.outside []) (.outside ['}'])
  | reopenedFresh : Related .reopened [] (.fresh ['}', '{']) (.inside [])
  | reopened : Related .reopened [] (.settled ['}', '{']) (.inside [])

theorem kind_cases (c : Char) : c = ' ' ∧ kind c = .space ∨ c = '{' ∧ kind c = .opening ∨
    c = '}' ∧ kind c = .closing ∨ (c ≠ ' ' ∧ c ≠ '{' ∧ c ≠ '}') ∧ kind c = .other := by
  by_cases space : c = ' '
  · exact .inl ⟨space, by rw [space]; rfl⟩
  · by_cases opening : c = '{'
    · exact .inr (.inl ⟨opening, by rw [opening]; rfl⟩)
    · by_cases closing : c = '}'
      · exact .inr (.inr (.inl ⟨closing, by rw [closing]; rfl⟩))
      · exact .inr (.inr (.inr ⟨⟨space, opening, closing⟩, by
          rw [kind, if_neg space, if_neg opening, if_neg closing]⟩))

theorem scanner_outside_other {c : Char} (space : c ≠ ' ') (brace : c ≠ '{') (word : Text) :
    scanner.next (.outside word) c = ([], .outside (word ++ [c])) := by
  simp [scanner, space, brace]

theorem scanner_fresh_other {c : Char} (space : c ≠ ' ') (content : Text) :
    scanner.next (.fresh content) c = ([], .fresh (content ++ [c])) := by
  simp [scanner, space]

theorem scanner_settled_other {c : Char} (space : c ≠ ' ') (brace : c ≠ '}') (content : Text) :
    scanner.next (.settled content) c = ([], .settled (content ++ [c])) := by
  simp [scanner, space, brace]

private theorem append_iff_false {content : Text} {c : Char} :
    (false = true ↔ content ++ [c] = []) := by simp

theorem keeps : Transducer.Keeps scanner tokenizer Phase.next Related := by
  intro phase ahead state state' related c phase' next
  rw [Phase.next] at next
  cases related with
  | outside clean word =>
    rcases kind_cases c with
      ⟨rfl, kind⟩ | ⟨rfl, kind⟩ | ⟨rfl, kind⟩ | ⟨⟨space, opening, _⟩, kind⟩ <;>
      rw [kind] at next <;> cases next
    · exact ⟨[], by simp, .outside true []⟩
    · exact ⟨[], by simp, .fresh (by simp)⟩
    · exact ⟨[], rfl, .outside clean _⟩
    · rw [scanner_outside_other space opening, tokenizer_outside space opening]
      exact ⟨[], rfl, .outside clean _⟩
  | @fresh empty content same =>
    rcases kind_cases c with
      ⟨rfl, kind⟩ | ⟨rfl, kind⟩ | ⟨rfl, kind⟩ | ⟨⟨space, _, closing⟩, kind⟩ <;>
      rw [kind] at next
    · cases next
      exact ⟨[], rfl, .settled same⟩
    · cases empty <;> cases next <;> exact ⟨[], rfl, .fresh append_iff_false⟩
    · cases empty
      · cases next
      · cases next
        obtain rfl := same.mp rfl
        exact ⟨[], rfl, .late⟩
    · rw [scanner_fresh_other space, tokenizer_inside space closing]
      cases empty <;> cases next <;> exact ⟨[], rfl, .fresh append_iff_false⟩
  | settled same =>
    rcases kind_cases c with
      ⟨rfl, kind⟩ | ⟨rfl, kind⟩ | ⟨rfl, kind⟩ | ⟨⟨space, _, closing⟩, kind⟩ <;>
      rw [kind] at next <;> cases next
    · exact ⟨[], rfl, .settled same⟩
    · exact ⟨[], rfl, .settled append_iff_false⟩
    · exact ⟨[], by simp, .outside false []⟩
    · rw [scanner_settled_other space closing, tokenizer_inside space closing]
      exact ⟨[], rfl, .settled append_iff_false⟩
  | late =>
    rcases kind_cases c with ⟨rfl, kind⟩ | ⟨rfl, kind⟩ | ⟨rfl, kind⟩ | ⟨-, kind⟩ <;>
      rw [kind] at next <;> cases next
    · exact ⟨[], rfl, .apart⟩
    · exact ⟨[], rfl, .reopenedFresh⟩
  | apart =>
    rcases kind_cases c with ⟨rfl, kind⟩ | ⟨rfl, kind⟩ | ⟨rfl, kind⟩ | ⟨-, kind⟩ <;>
      rw [kind] at next <;> cases next
    · exact ⟨[], rfl, .apart⟩
    · exact ⟨[], rfl, .reopened⟩
    · exact ⟨[['}']], rfl, .stray⟩
  | stray =>
    rcases kind_cases c with ⟨rfl, kind⟩ | ⟨rfl, kind⟩ | ⟨rfl, kind⟩ | ⟨-, kind⟩ <;>
      rw [kind] at next <;> cases next
    · exact ⟨[], rfl, .outside true []⟩
    · exact ⟨[], rfl, .fresh (by simp)⟩
  | reopenedFresh =>
    rcases kind_cases c with ⟨rfl, kind⟩ | ⟨rfl, kind⟩ | ⟨rfl, kind⟩ | ⟨-, kind⟩ <;>
      rw [kind] at next <;> cases next
    exact ⟨[], rfl, .reopened⟩
  | reopened =>
    rcases kind_cases c with ⟨rfl, kind⟩ | ⟨rfl, kind⟩ | ⟨rfl, kind⟩ | ⟨-, kind⟩ <;>
      rw [kind] at next <;> cases next
    exact ⟨[], rfl, .reopened⟩

/-- At its end a line was cut into its tokens exactly in the phases in which it may end. -/
theorem Related.ends_iff {phase : Phase} {ahead : List Text} {state : Scan} {state' : Place}
    (related : Related phase ahead state state') :
    ahead ++ scanner.last state = tokenizer.last state' ↔ phase.ends = true := by
  have group {empty : Bool} {content : Text} (same : empty = true ↔ content = []) :
      [] = pushPart content ↔ empty = true := by
    rw [same]
    cases content <;> simp [pushPart]
  cases related with
  | outside => exact ⟨fun _ => rfl, fun _ => rfl⟩
  | fresh same => exact group same
  | settled same => exact group same
  | late => decide
  | apart => decide
  | stray => decide
  | reopenedFresh => decide
  | reopened => decide

/-! ### Where nothing can follow -/

/-- What the loop holds of a group is the start of its next token. -/
theorem scanner_settled_head {held : Text} (nonempty : held ≠ []) (text : Text) :
    scanner.run (.settled held) text = [] ∨ ∃ more later,
      scanner.run (.settled held) text = (held ++ more) :: later := by
  induction text generalizing held with
  | nil => exact .inl rfl
  | cons c rest ih =>
    rw [scanner.run_cons]
    by_cases space : c = ' '
    · subst space
      exact ih nonempty
    · by_cases closing : c = '}'
      · subst closing
        exact .inr ⟨[], scanner.run (.outside []) rest, by simp [pushPart_of_ne nonempty]⟩
      · rw [scanner_settled_other space closing]
        rcases ih (List.append_ne_nil_of_left_ne_nil nonempty [c]) with none | ⟨more, later, some_⟩
        · exact .inl none
        · exact .inr ⟨c :: more, later, by simpa using some_⟩

/-- Of a group that was opened in this part, the rest of the part is in the token too. -/
theorem scanner_fresh_head {held : Text} (nonempty : held ≠ []) (text : Text) :
    scanner.run (.fresh held) text = [] ∨ ∃ more later,
      scanner.run (.fresh held) text = (held ++ text.takeWhile (· ≠ ' ') ++ more) :: later := by
  induction text generalizing held with
  | nil => exact .inl rfl
  | cons c rest ih =>
    rw [scanner.run_cons]
    by_cases space : c = ' '
    · subst space
      simpa using scanner_settled_head nonempty rest
    · rw [scanner_fresh_other space, List.takeWhile_cons_of_pos (by simpa using space)]
      simpa using ih (List.append_ne_nil_of_left_ne_nil nonempty [c])

/-- A word is a token with no more than the rest of the part. -/
theorem tokenizer_outside_head {word : Text} (nonempty : word ≠ []) (text : Text) :
    ∃ more later, tokenizer.run (.outside word) text = (word ++ more) :: later ∧
      more.length ≤ (text.takeWhile (· ≠ ' ')).length := by
  induction text generalizing word with
  | nil => exact ⟨[], [], by simp [tokenizer, pushPart_of_ne nonempty], le_rfl⟩
  | cons c rest ih =>
    rw [tokenizer.run_cons]
    by_cases space : c = ' '
    · subst space
      exact ⟨[], tokenizer.run (.outside []) rest, by simp [pushPart_of_ne nonempty], Nat.zero_le _⟩
    · by_cases opening : c = '{'
      · subst opening
        exact ⟨[], tokenizer.run (.inside []) rest, by simp [pushPart_of_ne nonempty],
          Nat.zero_le _⟩
      · obtain ⟨more, later, run, short⟩ := ih (List.append_ne_nil_of_left_ne_nil nonempty [c])
        rw [tokenizer_outside space opening, List.takeWhile_cons_of_pos (by simpa using space)]
        exact ⟨c :: more, later, by simpa using run, Nat.succ_le_succ short⟩

/-- A group with content is a token. -/
theorem tokenizer_inside_head {content : Text} (nonempty : content ≠ []) (text : Text) :
    ∃ more later, tokenizer.run (.inside content) text = (content ++ more) :: later := by
  induction text generalizing content with
  | nil => exact ⟨[], [], by simp [tokenizer, pushPart_of_ne nonempty]⟩
  | cons c rest ih =>
    rw [tokenizer.run_cons]
    by_cases space : c = ' '
    · subst space
      exact ih nonempty
    · by_cases closing : c = '}'
      · subst closing
        exact ⟨[], tokenizer.run (.outside []) rest, by simp [pushPart_of_ne nonempty]⟩
      · obtain ⟨more, later, run⟩ := ih (List.append_ne_nil_of_left_ne_nil nonempty [c])
        rw [tokenizer_inside space closing]
        exact ⟨c :: more, later, by simpa using run⟩

/-- A word has no opening brace, a group no closing one. -/
def Place.Plain : Place → Prop
  | .outside word => '{' ∉ word
  | .inside content => '}' ∉ content

theorem plain_of_mem_run {place : Place} (plain : place.Plain) {text token : Text}
    (member : token ∈ tokenizer.run place text) : '{' ∉ token ∨ '}' ∉ token := by
  have pushed {part : Text} (among : token ∈ pushPart part) : token = part := by
    rw [pushPart] at among
    split at among
    · cases among
    · exact List.mem_singleton.mp among
  induction text generalizing place with
  | nil =>
    cases place with
    | outside word => exact .inl (pushed member ▸ plain)
    | inside content => exact .inr (pushed member ▸ plain)
  | cons c rest ih =>
    rw [tokenizer.run_cons, List.mem_append] at member
    cases place with
    | outside word =>
      rcases kind_cases c with ⟨rfl, -⟩ | ⟨rfl, -⟩ | ⟨rfl, -⟩ | ⟨⟨space, opening, _⟩, -⟩
      · rcases member with here | later
        · exact .inl (pushed here ▸ plain)
        · exact ih (show (Place.outside []).Plain from List.not_mem_nil) later
      · rcases member with here | later
        · exact .inl (pushed here ▸ plain)
        · exact ih (show (Place.inside []).Plain from List.not_mem_nil) later
      · rcases member with here | later
        · cases here
        · exact ih (show (Place.outside (word ++ ['}'])).Plain by simpa [Place.Plain] using plain)
            later
      · rw [tokenizer_outside space opening] at member
        rcases member with here | later
        · cases here
        · exact ih (show (Place.outside (word ++ [c])).Plain by
            simpa [Place.Plain, Ne.symm opening] using plain) later
    | inside content =>
      rcases kind_cases c with ⟨rfl, -⟩ | ⟨rfl, -⟩ | ⟨rfl, -⟩ | ⟨⟨space, _, closing⟩, -⟩
      · rcases member with here | later
        · cases here
        · exact ih (show (Place.inside content).Plain from plain) later
      · rcases member with here | later
        · cases here
        · exact ih (show (Place.inside (content ++ ['{'])).Plain by simpa [Place.Plain] using plain)
            later
      · rcases member with here | later
        · exact .inr (pushed here ▸ plain)
        · exact ih (show (Place.outside []).Plain from List.not_mem_nil) later
      · rw [tokenizer_inside space closing] at member
        rcases member with here | later
        · cases here
        · exact ih (show (Place.inside (content ++ [c])).Plain by
            simpa [Place.Plain, Ne.symm closing] using plain) later

/-- A run of the loop that holds a group never gives a token that starts with another text. -/
private theorem ne_of_held {run : List Text} {held : Text}
    (head : run = [] ∨ ∃ more later, run = (held ++ more) :: later) {token : Text}
    {others : List Text} (other : ∀ more, held ++ more ≠ token) : run ≠ token :: others := by
  rintro rfl
  rcases head with none | ⟨more, later, same⟩
  · cases none
  · exact other more (List.cons.inj same).1.symm

private theorem brace_ne {c : Char} (closing : c ≠ '}') (held more rest : Text) :
    ('}' :: held) ++ more ≠ [c] ++ rest := by
  intro same
  exact closing (List.cons.inj same).1.symm

private theorem fresh_head {held : Text} (nonempty : held ≠ []) (text : Text) :
    scanner.run (.fresh held) text = [] ∨ ∃ more later,
      scanner.run (.fresh held) text = (held ++ more) :: later := by
  rcases scanner_fresh_head nonempty text with none | ⟨more, later, some_⟩
  · exact .inl none
  · exact .inr ⟨_, later, by rw [some_, List.append_assoc]⟩

/-- Where a phase objects to a character, the tokens are wrong whatever follows; a group that was
opened in this part is put off to the next one. -/
theorem Related.stuck {phase : Phase} {ahead : List Text} {state : Scan} {state' : Place}
    (related : Related phase ahead state state') {c : Char} (objects : phase.next c = none)
    (apart : ∀ held, state = .fresh held → phase ≠ .reopened) (rest : Text) :
    ahead ++ scanner.run state (c :: rest) ≠ tokenizer.run state' (c :: rest) := by
  rw [scanner.run_cons, tokenizer.run_cons]
  rw [Phase.next] at objects
  cases related with
  | outside clean word =>
    rcases kind_cases c with ⟨-, kind⟩ | ⟨-, kind⟩ | ⟨-, kind⟩ | ⟨-, kind⟩ <;>
      rw [kind] at objects <;> cases objects
  | @fresh empty content same =>
    rcases kind_cases c with ⟨-, kind⟩ | ⟨-, kind⟩ | ⟨rfl, kind⟩ | ⟨-, kind⟩ <;>
      rw [kind] at objects <;> cases empty <;> cases objects
    have nonempty : content ≠ [] := fun none => Bool.false_ne_true (same.mpr none)
    rw [scanner_fresh_other (by decide), tokenizer_inside_close, pushPart_of_ne nonempty]
    refine ne_of_held (fresh_head (by simp) rest) fun more equal => ?_
    have := congrArg List.length equal
    simp at this
  | settled same =>
    rcases kind_cases c with ⟨-, kind⟩ | ⟨-, kind⟩ | ⟨-, kind⟩ | ⟨-, kind⟩ <;>
      rw [kind] at objects <;> cases objects
  | late =>
    rcases kind_cases c with
      ⟨-, kind⟩ | ⟨-, kind⟩ | ⟨rfl, kind⟩ | ⟨⟨space, opening, closing⟩, kind⟩ <;>
      rw [kind] at objects <;> cases objects
    · -- The loop takes the whole part into the group, a word ends with the part at the latest.
      obtain ⟨more, others, run, short⟩ := tokenizer_outside_head (List.cons_ne_nil '}' []) rest
      rw [show tokenizer.next (.outside []) '}' = ([], .outside ['}']) from rfl,
        show scanner.next (.fresh ['}']) '}' = ([], .fresh ['}', '}']) from rfl, run]
      intro equal
      rcases scanner_fresh_head (List.cons_ne_nil '}' ['}']) rest with none | ⟨tail, later, some_⟩
      · rw [none] at equal
        cases equal
      · rw [some_] at equal
        have length := congrArg List.length (List.cons.inj equal).1
        simp only [List.length_append, List.length_cons, List.length_nil] at length
        omega
    · obtain ⟨more, others, run, -⟩ := tokenizer_outside_head (List.cons_ne_nil c []) rest
      rw [scanner_fresh_other space, tokenizer_outside space opening]
      change scanner.run (.fresh ['}', c]) rest ≠ tokenizer.run (.outside [c]) rest
      rw [run]
      exact ne_of_held (fresh_head (by simp) rest) fun tail => brace_ne closing [c] tail more
  | apart =>
    rcases kind_cases c with
      ⟨-, kind⟩ | ⟨-, kind⟩ | ⟨-, kind⟩ | ⟨⟨space, opening, closing⟩, kind⟩ <;>
      rw [kind] at objects <;> cases objects
    obtain ⟨more, others, run, -⟩ := tokenizer_outside_head (List.cons_ne_nil c []) rest
    rw [scanner_settled_other space closing, tokenizer_outside space opening]
    change scanner.run (.settled ['}', c]) rest ≠ tokenizer.run (.outside [c]) rest
    rw [run]
    exact ne_of_held (scanner_settled_head (by simp) rest) fun tail =>
      brace_ne closing [c] tail more
  | stray =>
    -- The loop has given the brace as a token, but its word goes on.
    have longer {c : Char} (next : tokenizer.next (.outside ['}']) c = ([], .outside ['}', c]))
        (others : List Text) :
        ['}'] :: others ≠ (tokenizer.next (.outside ['}']) c).1 ++
          tokenizer.run (tokenizer.next (.outside ['}']) c).2 rest := by
      obtain ⟨more, later, run, -⟩ := tokenizer_outside_head (List.cons_ne_nil '}' [c]) rest
      rw [next, List.nil_append, run]
      intro equal
      have length := congrArg List.length (List.cons.inj equal).1
      simp at length
    rcases kind_cases c with ⟨-, kind⟩ | ⟨-, kind⟩ | ⟨rfl, kind⟩ | ⟨⟨space, opening, _⟩, kind⟩ <;>
      rw [kind] at objects <;> cases objects
    · exact longer rfl _
    · exact longer (tokenizer_outside space opening ['}']) _
  | reopenedFresh => exact (apart _ rfl rfl).elim
  | reopened =>
    rcases kind_cases c with ⟨-, kind⟩ | ⟨rfl, kind⟩ | ⟨rfl, kind⟩ | ⟨⟨space, _, closing⟩, kind⟩ <;>
      rw [kind] at objects <;> cases objects
    · obtain ⟨more, others, run⟩ := tokenizer_inside_head (List.cons_ne_nil '{' []) rest
      change scanner.run (.settled ['}', '{', '{']) rest ≠ tokenizer.run (.inside ['{']) rest
      rw [run]
      exact ne_of_held (scanner_settled_head (by simp) rest) fun tail =>
        brace_ne (by decide) ['{', '{'] tail more
    · -- The loop ends a group that has an opening brace after a closing one.
      rw [scanner_settled_close, tokenizer_inside_close]
      intro equal
      have member : ['}', '{'] ∈ tokenizer.run (.outside []) rest := by
        change ['}', '{'] :: scanner.run (.outside []) rest = tokenizer.run (.outside []) rest
          at equal
        exact equal ▸ List.mem_cons_self
      rcases plain_of_mem_run (show (Place.outside []).Plain from List.not_mem_nil) member with
        opening | closing
      · exact opening (by simp)
      · exact closing (by simp)
    · obtain ⟨more, others, run⟩ := tokenizer_inside_head (List.cons_ne_nil c []) rest
      rw [scanner_settled_other space closing, tokenizer_inside space closing]
      change scanner.run (.settled ['}', '{', c]) rest ≠ tokenizer.run (.inside [c]) rest
      rw [run]
      exact ne_of_held (scanner_settled_head (by simp) rest) fun tail =>
        brace_ne closing ['{', c] tail more

/-! ### More spaces -/

/-- A phase from which no more lines are read to their end than from another. -/
inductive Phase.Below : Phase → Phase → Prop
  | refl (phase : Phase) : Below phase phase
  | outside : Below (outside false) (outside true)
  | fresh (empty : Bool) : Below (fresh empty) (settled empty)
  | late (clean : Bool) : Below late (outside clean)
  | lateApart : Below late apart
  | apart (clean : Bool) : Below apart (outside clean)
  | stray (clean : Bool) : Below stray (outside clean)
  | reopened : Below reopened (fresh true)
  | reopenedSettled : Below reopened (settled true)

namespace Phase.Below

variable {low high low' : Phase}

theorem step (below : Below low high) {k : Kind} (next : low.step k = some low') :
    ∃ high', high.step k = some high' ∧ Below low' high' := by
  cases below with
  | refl => exact ⟨low', next, .refl low'⟩
  | outside =>
    cases k <;> cases next
    · exact ⟨_, rfl, .refl _⟩
    · exact ⟨_, rfl, .refl _⟩
    · exact ⟨_, rfl, .outside⟩
    · exact ⟨_, rfl, .outside⟩
  | fresh empty =>
    cases k <;> cases empty <;> cases next
    · exact ⟨_, rfl, .refl _⟩
    · exact ⟨_, rfl, .refl _⟩
    · exact ⟨_, rfl, .fresh false⟩
    · exact ⟨_, rfl, .fresh false⟩
    · exact ⟨_, rfl, .late false⟩
    · exact ⟨_, rfl, .fresh false⟩
    · exact ⟨_, rfl, .fresh false⟩
  | late clean =>
    cases k <;> cases next
    · exact ⟨_, rfl, .apart true⟩
    · exact ⟨_, rfl, .reopened⟩
  | lateApart =>
    cases k <;> cases next
    · exact ⟨_, rfl, .refl _⟩
    · exact ⟨_, rfl, .refl _⟩
  | apart clean =>
    cases k <;> cases next
    · exact ⟨_, rfl, .apart true⟩
    · exact ⟨_, rfl, .reopened⟩
    · exact ⟨_, rfl, .stray clean⟩
  | stray clean =>
    cases k <;> cases next
    · exact ⟨_, rfl, .refl _⟩
    · exact ⟨_, rfl, .refl _⟩
  | reopened =>
    cases k <;> cases next
    exact ⟨_, rfl, .reopenedSettled⟩
  | reopenedSettled =>
    cases k <;> cases next
    exact ⟨_, rfl, .reopenedSettled⟩

theorem run (below : Below low high) {text : Text} (read : text.foldlM Phase.next low = some low') :
    ∃ high', text.foldlM Phase.next high = some high' ∧ Below low' high' := by
  induction text generalizing low high with
  | nil =>
    cases read
    exact ⟨high, rfl, below⟩
  | cons c rest ih =>
    rw [List.foldlM_cons, Option.bind_eq_bind, Option.bind_eq_some_iff] at read
    obtain ⟨middle, first, later⟩ := read
    obtain ⟨next, goes, kept⟩ := below.step first
    obtain ⟨last, reads, final⟩ := ih kept later
    refine ⟨last, ?_, final⟩
    rw [List.foldlM_cons, Option.bind_eq_bind, Option.bind_eq_some_iff]
    exact ⟨next, goes, reads⟩

/-- A space leads to a phase that is no worse. -/
theorem space (phase : Phase) : ∃ next, phase.next ' ' = some next ∧ Below phase next := by
  cases phase with
  | outside clean => cases clean; exacts [⟨_, rfl, .outside⟩, ⟨_, rfl, .refl _⟩]
  | fresh empty => cases empty <;> exact ⟨_, rfl, .fresh _⟩
  | settled empty => exact ⟨_, rfl, .refl _⟩
  | late => exact ⟨_, rfl, .lateApart⟩
  | apart => exact ⟨_, rfl, .refl _⟩
  | stray => exact ⟨_, rfl, .stray true⟩
  | reopened => exact ⟨_, rfl, .refl _⟩

theorem trans {middle : Phase} (one : Below low middle) (two : Below middle high) :
    Below low high := by
  cases one <;> cases two <;> constructor

theorem ends (below : Below low high) (may : low.ends = true) : high.ends = true := by
  cases below <;> exact may

theorem clean (below : Below low high) (may : low.clean = true) : high.clean = true := by
  cases below <;> first | exact may | cases may

end Phase.Below

theorem phaseAfter_append (before after : Text) :
    phaseAfter (before ++ after) = (phaseAfter before).bind fun phase =>
      after.foldlM Phase.next phase := by
  rw [phaseAfter, List.foldlM_append]
  rfl

theorem phaseAfter_of_spaced {text more : Text} (spaced : Spaced text more) {phase : Phase}
    (read : phaseAfter text = some phase) :
    ∃ phase', phaseAfter more = some phase' ∧ phase.Below phase' := by
  induction spaced with
  | refl => exact ⟨phase, read, .refl phase⟩
  | @tail text more _ added ih =>
    obtain ⟨before, after, rfl, rfl, -⟩ := added
    obtain ⟨last, read, below⟩ := ih
    rw [phaseAfter_append, Option.bind_eq_some_iff] at read
    obtain ⟨middle, first, later⟩ := read
    obtain ⟨next, space, worse⟩ := Phase.Below.space middle
    obtain ⟨last', reads, below'⟩ := worse.run later
    refine ⟨last', ?_, below.trans below'⟩
    rw [phaseAfter_append, first, Option.bind_some, List.foldlM_cons, space]
    exact reads

/-! ### Comments of variants -/

theorem commentAt_mono {one two : Text} (starts : commentAt one = true)
    (shorter : one <+: two) : commentAt two = true := by
  rw [commentAt, Bool.or_eq_true] at starts ⊢
  rw [List.isPrefixOf_iff_prefix, List.isPrefixOf_iff_prefix] at starts ⊢
  exact starts.imp (·.trans shorter) (·.trans shorter)

theorem comment_body (line : Text) : body (body line) = body line ∧ comment (body line) = [] := by
  induction line with
  | nil => exact ⟨rfl, rfl⟩
  | cons c rest ih =>
    rw [body]
    split
    · exact ⟨rfl, rfl⟩
    · rename_i other
      have shorter : c :: body rest <+: c :: rest :=
        List.cons_prefix_cons.mpr ⟨rfl, comment rest, body_append_comment rest⟩
      have none : ¬ commentAt (c :: body rest) = true := fun starts =>
        other (commentAt_mono starts shorter)
      rw [body, comment, if_neg none, if_neg none, ih.1]
      exact ⟨rfl, ih.2⟩

/-- A space in the body of a line is no part of its comment. -/
theorem body_of_spaceAdded {text more ending : Text} (added : SpaceAdded text more)
    (cut : body (text ++ ending) = text ∧ comment (text ++ ending) = ending) :
    body (more ++ ending) = more ∧ comment (more ++ ending) = ending := by
  obtain ⟨before, after, rfl, rfl, -⟩ := added
  induction before with
  | nil =>
    have space : commentAt (' ' :: (after ++ ending)) = false := rfl
    rw [List.nil_append, List.cons_append, body, comment, space, if_neg Bool.false_ne_true,
      if_neg Bool.false_ne_true]
    exact ⟨congrArg (' ' :: ·) cut.1, cut.2⟩
  | cons d before ih =>
    rw [List.cons_append, List.cons_append, body, comment] at cut
    split at cut
    · cases cut.1
    · rename_i other
      have none : ¬ commentAt (d :: (before ++ ' ' :: after ++ ending)) = true := by
        cases before with
        | nil =>
          intro starts
          apply other
          have hash : '#' = d := by simpa [commentAt, List.isPrefixOf] using starts
          subst hash
          rfl
        | cons e before => exact other
      obtain ⟨same, ends⟩ := ih ⟨(List.cons.inj cut.1).2, cut.2⟩
      rw [List.cons_append, List.cons_append, body, comment, if_neg none, if_neg none, same]
      exact ⟨rfl, ends⟩

theorem body_of_spaced {text more ending : Text} (spaced : Spaced text more)
    (cut : body (text ++ ending) = text ∧ comment (text ++ ending) = ending) :
    body (more ++ ending) = more ∧ comment (more ++ ending) = ending := by
  induction spaced with
  | refl => exact cut
  | tail _ added ih => exact body_of_spaceAdded added ih

theorem comment_of_spaced {line text : Text} (spaced : Spaced (body line) text) :
    comment text = [] := by
  have none := comment_body line
  rw [← List.append_nil (body line)] at none
  have cut := body_of_spaced spaced ⟨by simpa using none.1, none.2⟩
  rw [List.append_nil] at cut
  exact cut.2

/-! ### The part that a comment stands in -/

theorem exists_lastPart (text : Text) : ∃ lead part, text = lead ++ part ∧ ' ' ∉ part ∧
    (lead = [] ∨ ∃ before, lead = before ++ [' ']) := by
  induction text using line_induction with
  | last word spaces => exact ⟨[], word, rfl, spaces, .inl rfl⟩
  | cons word rest spaces ih =>
    obtain ⟨lead, part, rfl, inside, none | ⟨before, rfl⟩⟩ := ih
    · subst none
      exact ⟨word ++ [' '], part, by simp, inside, .inr ⟨word, rfl⟩⟩
    · exact ⟨word ++ ' ' :: (before ++ [' ']), part, by simp, inside,
        .inr ⟨word ++ ' ' :: before, by simp⟩⟩

/-- Up to the start of a part the transducers of the loop agree. -/
theorem cutter_lead (start : Scan) (part before : Text) :
    cutter.emitted (start, part) (before ++ [' ']) =
        scanner.emitted start (part ++ (before ++ [' '])) ∧
      cutter.after (start, part) (before ++ [' ']) =
        (scanner.after start (part ++ (before ++ [' '])), []) := by
  induction before generalizing start part with
  | nil =>
    rw [List.nil_append, cutter.emitted_cons, cutter.after_cons, cutter_space]
    exact ⟨List.append_nil _, rfl⟩
  | cons c before ih =>
    rw [List.cons_append, cutter.emitted_cons, cutter.after_cons]
    by_cases space : c = ' '
    · subst space
      obtain ⟨emits, ends⟩ := ih (scanner.after start (part ++ [' '])) []
      have cut : part ++ ' ' :: (before ++ [' ']) = part ++ [' '] ++ (before ++ [' ']) := by simp
      rw [cutter_space, emits, ends, cut, scanner.emitted_append start (part ++ [' ']),
        scanner.after_append start (part ++ [' '])]
      exact ⟨rfl, rfl⟩
    · obtain ⟨emits, ends⟩ := ih start (part ++ [c])
      rw [cutter_other space, emits, ends, List.append_assoc]
      exact ⟨rfl, rfl⟩

/-- A part outside of groups is a token up to its first brace. -/
theorem scanner_run_outside {part : Text} (spaces : ' ' ∉ part) :
    '{' ∉ part ∧ scanner.run (.outside []) part = pushPart part ∨
      '{' ∈ part ∧ (scanner.run (.outside []) part).flatten.length < part.length := by
  rcases find_singleton '{' part with ⟨before, after, rfl, absent, -⟩ | ⟨absent, -⟩
  · rw [List.mem_append, not_or, List.mem_cons, not_or] at spaces
    obtain ⟨emits, stays⟩ := scanner_outside spaces.1 absent []
    obtain ⟨emits', stays'⟩ := scanner_fresh spaces.2.2 []
    refine .inr ⟨by simp, ?_⟩
    rw [scanner.run_append, emits, stays, scanner.run_cons, scanner_outside_open, Transducer.run,
      emits', stays']
    simp [scanner, flatten_pushPart]
  · obtain ⟨emits, stays⟩ := scanner_outside spaces absent []
    rw [Transducer.run, emits, stays]
    exact .inl ⟨absent, rfl⟩

theorem length_run_outside {part : Text} (spaces : ' ' ∉ part) :
    (scanner.run (.outside []) part).flatten.length ≤ part.length := by
  rcases scanner_run_outside spaces with ⟨-, run⟩ | ⟨-, shorter⟩
  · rw [run, flatten_pushPart]
  · exact shorter.le

/-- A part in a group is shorter without the brace that closes it. -/
theorem length_run_settled (content : Text) {part : Text} (spaces : ' ' ∉ part)
    (nonempty : content ≠ [] ∨ part ≠ []) :
    (scanner.run (.settled content) part).flatten.length < content.length + part.length := by
  rcases find_singleton '}' part with ⟨before, after, rfl, absent, -⟩ | ⟨absent, -⟩
  · rw [List.mem_append, not_or, List.mem_cons, not_or] at spaces
    obtain ⟨emits, stays⟩ := scanner_settled spaces.1 absent content
    have rest := length_run_outside spaces.2.2
    rw [scanner.run_append, emits, stays, scanner.run_cons, scanner_settled_close]
    simp only [List.nil_append, List.flatten_append, flatten_pushPart, List.length_append,
      List.length_cons]
    omega
  · obtain ⟨emits, stays⟩ := scanner_settled spaces absent content
    rw [Transducer.run, emits, stays]
    rcases nonempty with some_ | some_
    · exact Nat.lt_add_right _ (List.length_pos_iff.mpr some_)
    · exact Nat.lt_add_left _ (List.length_pos_iff.mpr some_)

/-- Where the part that a comment stands in is a token like any other. -/
theorem run_part_iff {start : Scan}
    (between : start = .outside [] ∨ ∃ content, start = .settled content) {part : Text}
    (spaces : ' ' ∉ part) :
    pushPart start.content ++ pushPart part = scanner.run start part ↔
      start = .outside [] ∧ '{' ∉ part ∨ start = .settled [] ∧ part = [] := by
  rcases between with rfl | ⟨content, rfl⟩
  · rcases scanner_run_outside spaces with ⟨absent, run⟩ | ⟨among, shorter⟩
    · exact ⟨fun _ => .inl ⟨rfl, absent⟩, fun _ => run.symm⟩
    · constructor
      · intro same
        rw [← same, List.flatten_append, flatten_pushPart, flatten_pushPart] at shorter
        exact (Nat.lt_irrefl _ shorter).elim
      · rintro (⟨-, absent⟩ | ⟨other, -⟩)
        · exact (absent among).elim
        · cases other
  · constructor
    · intro same
      have shorter := length_run_settled content spaces
      rw [← same, List.flatten_append, flatten_pushPart, flatten_pushPart, List.length_append]
        at shorter
      have empty : content = [] ∧ part = [] := by
        by_contra either
        exact Nat.lt_irrefl _ (shorter (not_and_or.mp either))
      exact .inr ⟨by rw [empty.1], empty.2⟩
    · rintro (⟨other, -⟩ | ⟨same, rfl⟩)
      · cases other
      · cases same
        rfl

theorem Phase.clean_next {phase phase' : Phase} {c : Char} (space : c ≠ ' ')
    (next : phase.next c = some phase') :
    (phase'.clean = true ↔ phase = .outside true ∧ c ≠ '{') ∧
      (phase' = .outside true ↔ phase = .outside true ∧ c ≠ '{') := by
  rw [Phase.next] at next
  rcases kind_cases c with ⟨same, -⟩ | ⟨rfl, kind⟩ | ⟨rfl, kind⟩ | ⟨⟨-, opening, -⟩, kind⟩
  · exact (space same).elim
  all_goals
    rw [kind] at next
    cases phase with
    | outside clean => cases next; simp [Phase.clean, *]
    | fresh empty => cases empty <;> cases next <;> simp [Phase.clean]
    | _ => cases next <;> simp [Phase.clean]

/-- A part is without braces as long as the phase is clean. -/
theorem clean_of_part {phase phase' : Phase} {part : Text} (spaces : ' ' ∉ part)
    (read : part.foldlM Phase.next phase = some phase') :
    phase'.clean = true ↔
      phase = .outside true ∧ '{' ∉ part ∨ part = [] ∧ phase.clean = true := by
  induction part generalizing phase with
  | nil =>
    cases read
    constructor
    · exact fun clean => .inr ⟨rfl, clean⟩
    · rintro (⟨rfl, -⟩ | ⟨-, clean⟩)
      · rfl
      · exact clean
  | cons c part ih =>
    rw [List.foldlM_cons, Option.bind_eq_bind, Option.bind_eq_some_iff] at read
    obtain ⟨middle, first, later⟩ := read
    rw [List.mem_cons, not_or] at spaces
    obtain ⟨clean, same⟩ := Phase.clean_next (Ne.symm spaces.1) first
    rw [ih spaces.2 later, clean, same, List.mem_cons, not_or]
    constructor
    · rintro (⟨⟨outside, opening⟩, absent⟩ | ⟨rfl, outside, opening⟩)
      · exact .inl ⟨outside, Ne.symm opening, absent⟩
      · exact .inl ⟨outside, Ne.symm opening, List.not_mem_nil⟩
    · rintro (⟨outside, opening, absent⟩ | ⟨none, -⟩)
      · exact .inl ⟨⟨outside, Ne.symm opening⟩, absent⟩
      · cases none

/-- Between two parts the phase says where the loop is. -/
theorem Related.between {phase phase' : Phase} {ahead : List Text} {state : Scan} {state' : Place}
    (related : Related phase ahead state state') (space : phase.next ' ' = some phase') :
    ((scanner.next state ' ').2 = .outside [] ∨ ∃ content, (scanner.next state ' ').2 =
        .settled content) ∧
      (phase' = .outside true ↔ (scanner.next state ' ').2 = .outside []) ∧
        (phase'.clean = true ↔ (scanner.next state ' ').2 = .outside [] ∨
          (scanner.next state ' ').2 = .settled []) := by
  cases related with
  | fresh same => cases space; simp [Phase.clean, same]
  | settled same => cases space; simp [Phase.clean, same]
  | _ => cases space; simp [Phase.clean]

theorem related_after {text : Text} {phase : Phase} (read : phaseAfter text = some phase) :
    ∃ ahead, scanner.emitted (.outside []) text =
        tokenizer.emitted (.outside []) text ++ ahead ∧
      Related phase ahead (scanner.after (.outside []) text) (tokenizer.after (.outside []) text) :=
  keeps.run (.outside true []) read

/-- A comment changes nothing exactly where the phase is clean. -/
theorem cutter_iff_clean {text : Text} {phase : Phase} (read : phaseAfter text = some phase) :
    cutter.run (.outside [], []) text = scanner.run (.outside []) text ↔ phase.clean = true := by
  obtain ⟨lead, part, rfl, spaces, lead_⟩ := exists_lastPart text
  rw [phaseAfter_append, Option.bind_eq_some_iff] at read
  obtain ⟨middle, first, later⟩ := read
  obtain ⟨between, outside, clean, agrees⟩ :
      (scanner.after (.outside []) lead = .outside [] ∨
          ∃ content, scanner.after (.outside []) lead = .settled content) ∧
        (middle = .outside true ↔ scanner.after (.outside []) lead = .outside []) ∧
        (middle.clean = true ↔ scanner.after (.outside []) lead = .outside [] ∨
          scanner.after (.outside []) lead = .settled []) ∧
        cutter.emitted (.outside [], []) lead = scanner.emitted (.outside []) lead ∧
        cutter.after (.outside [], []) lead = (scanner.after (.outside []) lead, []) := by
    rcases lead_ with rfl | ⟨before, rfl⟩
    · cases first
      simp [Phase.clean]
    · rw [phaseAfter_append, Option.bind_eq_some_iff] at first
      obtain ⟨early, reads, space⟩ := first
      rw [List.foldlM_cons, Option.bind_eq_bind, Option.bind_eq_some_iff] at space
      obtain ⟨next, space, same⟩ := space
      cases same
      obtain ⟨_, -, related⟩ := related_after reads
      obtain ⟨between, outside, clean⟩ := related.between space
      rw [scanner.after_append, scanner.after_cons, scanner.after_nil]
      refine ⟨between, outside, clean, ?_⟩
      obtain ⟨emits, ends⟩ := cutter_lead (.outside []) [] before
      rw [emits, ends, List.nil_append, scanner.after_append]
      exact ⟨rfl, rfl⟩
  rw [cutter.run_append, scanner.run_append, agrees.1, agrees.2, cutter_run_part spaces,
    List.append_cancel_left_eq, run_part_iff between spaces, clean_of_part spaces later, outside,
    clean]
  constructor
  · rintro (free | ⟨settled, none⟩)
    · exact .inl free
    · exact .inr ⟨none, .inr settled⟩
  · rintro (free | ⟨rfl, outside | settled⟩)
    · exact .inl free
    · exact .inl ⟨outside, List.not_mem_nil⟩
    · exact .inr ⟨settled, rfl⟩

/-! ## The tokenizer -/

theorem run_eq_iff_ends {text : Text} {phase : Phase} (read : phaseAfter text = some phase) :
    scanner.run (.outside []) text = tokenizer.run (.outside []) text ↔ phase.ends = true := by
  obtain ⟨ahead, emits, related⟩ := related_after read
  rw [Transducer.run, Transducer.run, emits, List.append_assoc, List.append_cancel_left_eq,
    related.ends_iff]

theorem Related.eq_of_reopened {ahead : List Text} {state : Scan} {state' : Place}
    (related : Related .reopened ahead state state') :
    ahead = [] ∧ scanner.next state ' ' = ([], .settled ['}', '{']) ∧ state' = .inside [] := by
  cases related <;> exact ⟨rfl, rfl, rfl⟩

/-- Where a phase objects, a line is not cut into its tokens, at least with one more space. -/
theorem exists_variant_of_objection {text : Text} (objects : phaseAfter text = none) :
    ∃ more, Spaced text more ∧
      scanner.run (.outside []) more ≠ tokenizer.run (.outside []) text := by
  obtain ⟨before, c, rest, rfl, phase, read, objects⟩ : ∃ before c rest,
      text = before ++ c :: rest ∧
        ∃ phase, phaseAfter before = some phase ∧ phase.next c = none := by
    induction text using List.reverseRecOn with
    | nil => cases objects
    | append_singleton before c ih =>
      rw [phaseAfter_append] at objects
      cases read : phaseAfter before with
      | none =>
        obtain ⟨before, d, rest, rfl, found⟩ := ih read
        exact ⟨before, d, rest ++ [c], by simp, found⟩
      | some phase =>
        rw [read, Option.bind_some, List.foldlM_cons] at objects
        refine ⟨before, c, [], rfl, phase, read, ?_⟩
        cases next : phase.next c with
        | none => rfl
        | some next =>
          rw [next] at objects
          cases objects
  obtain ⟨ahead, emits, related⟩ := related_after read
  by_cases reopened : phase = .reopened
  · subst reopened
    obtain ⟨rfl, space, place⟩ := related.eq_of_reopened
    refine ⟨before ++ ' ' :: c :: rest, .single ⟨before, c :: rest, rfl, rfl, ?_⟩, ?_⟩
    · intro word outside
      rw [place] at outside
      cases outside
    · rw [scanner.run_append, tokenizer.run_append, emits, List.append_nil, ne_eq,
        List.append_cancel_left_eq, scanner.run_cons, space, place]
      exact Related.reopened.stuck objects (fun _ same => by cases same) rest
  · refine ⟨before ++ c :: rest, .refl, ?_⟩
    rw [scanner.run_append, tokenizer.run_append, emits, List.append_assoc, ne_eq,
      List.append_cancel_left_eq]
    exact related.stuck objects (fun _ _ => reopened) rest

theorem splitBy_of_comment_nil {line : Text} (none : comment line = []) :
    splitByWhitespaceAndRemoveComments line = scanner.run (.outside []) line := by
  rw [splitByWhitespaceAndRemoveComments_eq, addParts_of_comment_nil none]
  rfl

theorem splitBy_of_comment {line : Text} (some_ : comment line ≠ [])
    (marked : Marked (comment line)) :
    splitByWhitespaceAndRemoveComments line = cutter.run (.outside [], []) (body line) := by
  rw [splitByWhitespaceAndRemoveComments_eq, addParts_of_comment some_ marked]
  rfl

theorem hash_not_mem_body (line : Text) : '#' ∉ body line := by
  induction line with
  | nil => exact List.not_mem_nil
  | cons c rest ih =>
    rw [body]
    split
    · exact List.not_mem_nil
    · rename_i other
      rw [List.mem_cons, not_or]
      refine ⟨?_, ih⟩
      rintro rfl
      exact other rfl

theorem hash_not_mem_tokens {line token : Text} (member : token ∈ tokens line) : '#' ∉ token := by
  intro hash
  have among : '#' ∈ (tokens line).flatten.filter Solid :=
    List.mem_filter.mpr ⟨List.mem_flatten.mpr ⟨token, member, hash⟩, rfl⟩
  rw [tokens, solid_run] at among
  exact hash_not_mem_body line (List.mem_of_mem_filter among)

theorem tokenizes_of_careful {line : Text} (careful : CarefulLine line) : Tokenizes line := by
  obtain ⟨phase, read, ends, starts⟩ := careful
  rintro variant ⟨text, spaced, which⟩
  obtain ⟨phase', read', below⟩ := phaseAfter_of_spaced spaced read
  have run : scanner.run (.outside []) text = tokens line := by
    rw [(run_eq_iff_ends read').mpr (below.ends ends), run_of_spaced spaced, tokens]
  have bare : comment text = [] := comment_of_spaced spaced
  have cut : body (text ++ comment line) = text ∧ comment (text ++ comment line) = comment line :=
    body_of_spaced spaced (by rw [body_append_comment]; exact ⟨rfl, rfl⟩)
  rcases which with rfl | rfl
  · rw [splitBy_of_comment_nil bare, run]
  · by_cases none : comment line = []
    · rw [none, List.append_nil, splitBy_of_comment_nil bare, run]
    · obtain ⟨marked, clean⟩ := starts none
      rw [splitBy_of_comment (by rwa [cut.2]) (by rwa [cut.2]), cut.1,
        (cutter_iff_clean read').mpr (below.clean clean), run]

theorem careful_of_tokenizes {line : Text} (tokenizes : Tokenizes line) : CarefulLine line := by
  have plain (text : Text) (spaced : Spaced (body line) text) :
      scanner.run (.outside []) text = tokens line := by
    rw [← tokenizes text ⟨text, spaced, .inl rfl⟩,
      splitBy_of_comment_nil (comment_of_spaced spaced)]
  cases read : phaseAfter (body line) with
  | none =>
    obtain ⟨more, spaced, wrong⟩ := exists_variant_of_objection read
    exact (wrong (plain more spaced)).elim
  | some phase =>
    refine ⟨phase, read, (run_eq_iff_ends read).mp (plain _ .refl), fun some_ => ?_⟩
    have whole : splitByWhitespaceAndRemoveComments line = tokens line :=
      tokenizes line ⟨body line, .refl, .inr (body_append_comment line).symm⟩
    have marked : Marked (comment line) := by
      by_contra unmarked
      obtain ⟨token, member, hash⟩ := addParts_of_unmarked some_ unmarked []
      rw [← splitByWhitespaceAndRemoveComments_eq, whole] at member
      exact hash_not_mem_tokens member hash
    refine ⟨marked, (cutter_iff_clean read).mp ?_⟩
    rw [plain _ .refl, ← whole, splitBy_of_comment some_ marked]

/-- The tokens of a line and of all of its variants are the ones it is made of exactly where the
line is careful with its groups and its comment. -/
theorem tokenizes_iff_careful (line : Text) : Tokenizes line ↔ CarefulLine line :=
  ⟨careful_of_tokenizes, tokenizes_of_careful⟩

/-- A group in one word is lost. -/
theorem not_tokenizes : ¬ Tokenizes "{0123}".toList := by
  intro tokenizes
  have lost := tokenizes _ ⟨_, .refl, .inl rfl⟩
  revert lost
  decide

end Hakkun.Sail
