import Hakkun.Machine.Core.Transducer
import Hakkun.Model.Sail.Parser
import Mathlib.Data.List.TakeWhile

/-! # The tokenizer character by character

The loop over the parts of a line is a transducer over its characters, in which a brace that was
opened in a part is not closed before the next one. A comment ends the loop in the middle of a part:
then the part is a token as it stands.
-/

namespace Hakkun.Sail

open Machine.Core (Transducer)

/-! ## Comments -/

/-- Whether a text starts with a comment. -/
def commentAt (text : Text) : Bool := ['#'].isPrefixOf text || ['/', '/'].isPrefixOf text

/-- The part of a line before its comment. -/
def body : Text → Text
  | [] => []
  | c :: rest => if commentAt (c :: rest) then [] else c :: body rest

/-- The comment of a line, with its marker. -/
def comment : Text → Text
  | [] => []
  | c :: rest => if commentAt (c :: rest) then c :: rest else comment rest

theorem body_append_comment (line : Text) : body line ++ comment line = line := by
  induction line with
  | nil => rfl
  | cons c rest ih =>
    rw [body, comment]
    split
    · rfl
    · rw [List.cons_append, ih]

theorem comment_cases (line : Text) : comment line = [] ∨ commentAt (comment line) = true := by
  induction line with
  | nil => exact .inl rfl
  | cons c rest ih =>
    rw [comment]
    split
    · exact .inr ‹_›
    · exact ih

theorem body_of_comment_nil {line : Text} (none : comment line = []) : body line = line := by
  have whole := body_append_comment line
  rwa [none, List.append_nil] at whole

/-- Neither marker goes across a space. -/
theorem commentAt_append_space (c : Char) (word rest : Text) :
    commentAt (c :: (word ++ ' ' :: rest)) = commentAt (c :: word) := by
  cases word with
  | nil => simp [commentAt, List.isPrefixOf]
  | cons d word => rfl

theorem body_append_space {word : Text} (none : comment word = []) (rest : Text) :
    body (word ++ ' ' :: rest) = word ++ ' ' :: body rest ∧
      comment (word ++ ' ' :: rest) = comment rest := by
  induction word with
  | nil => exact ⟨rfl, rfl⟩
  | cons c word ih =>
    rw [comment] at none
    split at none
    · cases none
    · obtain ⟨before, after⟩ := ih none
      rw [List.cons_append, body, comment, commentAt_append_space, if_neg ‹_›, if_neg ‹_›, before,
        after]
      exact ⟨rfl, rfl⟩

theorem body_append_of_comment {word : Text} (some_ : comment word ≠ []) (rest : Text) :
    body (word ++ ' ' :: rest) = body word ∧
      comment (word ++ ' ' :: rest) = comment word ++ ' ' :: rest := by
  induction word with
  | nil => exact (some_ rfl).elim
  | cons c word ih =>
    rw [comment] at some_ ⊢
    rw [List.cons_append, body, comment, commentAt_append_space, body]
    split at some_
    · rw [if_pos ‹_›, if_pos ‹_›, if_pos ‹_›, if_pos ‹_›]
      exact ⟨rfl, rfl⟩
    · obtain ⟨before, after⟩ := ih some_
      rw [if_neg ‹_›, if_neg ‹_›, if_neg ‹_›, if_neg ‹_›, before, after]
      exact ⟨rfl, rfl⟩

/-- A marker is found in the comment. -/
theorem find_marker {marker : Text} (nonempty : marker ≠ [])
    (marks : ∀ text, marker.isPrefixOf text = true → commentAt text = true) (part : Text) :
    find marker part = (find marker (comment part)).map (· + (body part).length) := by
  induction part with
  | nil => simp [find, comment, nonempty]
  | cons c rest ih =>
    rw [body, comment]
    split
    · simp
    · rename_i other
      have skip : marker.isPrefixOf (c :: rest) = false := by
        rw [Bool.eq_false_iff]
        exact fun starts => other (marks _ starts)
      rw [find, skip, if_neg Bool.false_ne_true, ih, Option.map_map]
      congr 1

/-- Whether the loop finds the marker that the comment starts with: a `#` before `//` in one word is
not found. -/
def Marked (comment : Text) : Prop :=
  ['/', '/'].isPrefixOf comment = true ∨
    find ['/', '/'] (comment.takeWhile fun c => c ≠ ' ') = none

/-! ## Characters -/

/-- Where the loop is: in a word, in a group that was opened in this part, or in one that was opened
in a part before. -/
inductive Scan where
  | outside (word : Text)
  | fresh (content : Text)
  | settled (content : Text)

/-- The loop over the parts of a line without a comment, character by character. -/
def scanner : Transducer Scan Char Text where
  next
    | .outside word, c =>
      if c = ' ' then (pushPart word, .outside [])
      else if c = '{' then (pushPart word, .fresh [])
      else ([], .outside (word ++ [c]))
    | .fresh content, c =>
      if c = ' ' then ([], .settled content) else ([], .fresh (content ++ [c]))
    | .settled content, c =>
      if c = ' ' then ([], .settled content)
      else if c = '}' then (pushPart content, .outside [])
      else ([], .settled (content ++ [c]))
  last
    | .outside word => pushPart word
    | _ => []

@[simp] theorem scanner_outside_space (word : Text) :
    scanner.next (.outside word) ' ' = (pushPart word, .outside []) := rfl

@[simp] theorem scanner_outside_open (word : Text) :
    scanner.next (.outside word) '{' = (pushPart word, .fresh []) := rfl

@[simp] theorem scanner_fresh_space (content : Text) :
    scanner.next (.fresh content) ' ' = ([], .settled content) := rfl

@[simp] theorem scanner_settled_space (content : Text) :
    scanner.next (.settled content) ' ' = ([], .settled content) := rfl

@[simp] theorem scanner_settled_close (content : Text) :
    scanner.next (.settled content) '}' = (pushPart content, .outside []) := rfl

/-- The end of a line is like a space. -/
theorem scanner_last (state : Scan) : scanner.last state = (scanner.next state ' ').1 := by
  cases state <;> rfl

theorem scanner_run (state : Scan) (text : Text) :
    scanner.run state text = scanner.emitted state (text ++ [' ']) := by
  rw [Transducer.run, scanner.emitted_append, scanner_last]
  simp [Transducer.emitted_cons]

theorem scanner_outside {text : Text} (spaces : ' ' ∉ text) (braces : '{' ∉ text) (word : Text) :
    scanner.emitted (.outside word) text = [] ∧
      scanner.after (.outside word) text = .outside (word ++ text) := by
  apply scanner.collects Scan.outside
  intro held c member
  have noSpace : c ≠ ' ' := fun same => spaces (same ▸ member)
  have noBrace : c ≠ '{' := fun same => braces (same ▸ member)
  simp [scanner, noSpace, noBrace]

theorem scanner_fresh {text : Text} (spaces : ' ' ∉ text) (content : Text) :
    scanner.emitted (.fresh content) text = [] ∧
      scanner.after (.fresh content) text = .fresh (content ++ text) := by
  apply scanner.collects Scan.fresh
  intro held c member
  have noSpace : c ≠ ' ' := fun same => spaces (same ▸ member)
  simp [scanner, noSpace]

theorem scanner_settled {text : Text} (spaces : ' ' ∉ text) (braces : '}' ∉ text)
    (content : Text) :
    scanner.emitted (.settled content) text = [] ∧
      scanner.after (.settled content) text = .settled (content ++ text) := by
  apply scanner.collects Scan.settled
  intro held c member
  have noSpace : c ≠ ' ' := fun same => spaces (same ▸ member)
  have noBrace : c ≠ '}' := fun same => braces (same ▸ member)
  simp [scanner, noSpace, noBrace]

/-! ## Parts -/

/-- Where the loop is between two parts. -/
def Scan.ofBraceBuf : Text → Scan
  | [] => .outside []
  | _ :: content => .settled content

theorem pushBraceBuf_cons (c : Char) (content : Text) :
    pushBraceBuf (c :: content) = pushPart content := by
  cases content <;> rfl

@[simp] theorem pushPart_nil : pushPart [] = [] := rfl

theorem pushPart_of_ne {part : Text} (nonempty : part ≠ []) : pushPart part = [part] :=
  if_neg nonempty

theorem openBrace_eq {part : Text} (spaces : ' ' ∉ part) (nonempty : part ≠ []) :
    (openBrace part).1 = scanner.emitted (.outside []) (part ++ [' ']) ∧
      Scan.ofBraceBuf (openBrace part).2 = scanner.after (.outside []) (part ++ [' ']) := by
  rw [scanner.emitted_append, scanner.after_append]
  rcases find_singleton '{' part with ⟨before, after, rfl, absent, found⟩ | ⟨absent, missing⟩
  · rw [List.mem_append, not_or, List.mem_cons, not_or] at spaces
    obtain ⟨emits, stays⟩ := scanner_outside spaces.1 absent []
    obtain ⟨emits', stays'⟩ := scanner_fresh spaces.2.2 []
    rw [openBrace, found]
    simp only [scanner.emitted_append, scanner.after_append, Transducer.emitted_cons,
      Transducer.after_cons, emits, stays, scanner_outside_open, emits', stays',
      scanner_fresh_space, Transducer.emitted_nil, Transducer.after_nil, List.take_left, List.drop_left, List.nil_append,
      List.append_nil, Scan.ofBraceBuf, and_self]
  · obtain ⟨emits, stays⟩ := scanner_outside spaces absent []
    rw [openBrace, missing]
    simp only [Transducer.emitted_cons, Transducer.after_cons, emits, stays, scanner_outside_space,
      Transducer.emitted_nil, Transducer.after_nil, List.nil_append, List.append_nil,
      pushPart_of_ne nonempty, Scan.ofBraceBuf, and_self]

theorem addPart_eq (braceBuf : Text) {part : Text} (spaces : ' ' ∉ part) (nonempty : part ≠ []) :
    (addPart braceBuf part).1 = scanner.emitted (.ofBraceBuf braceBuf) (part ++ [' ']) ∧
      Scan.ofBraceBuf (addPart braceBuf part).2 =
        scanner.after (.ofBraceBuf braceBuf) (part ++ [' ']) := by
  cases braceBuf with
  | nil => exact openBrace_eq spaces nonempty
  | cons c content =>
    rw [addPart, if_neg (List.cons_ne_nil _ _), scanner.emitted_append, scanner.after_append]
    rcases find_singleton '}' part with ⟨before, after, rfl, absent, found⟩ | ⟨absent, missing⟩
    · rw [List.mem_append, not_or, List.mem_cons, not_or] at spaces
      obtain ⟨emits, stays⟩ := scanner_settled spaces.1 absent content
      rw [found, Scan.ofBraceBuf]
      simp only [scanner.emitted_append, scanner.after_append, Transducer.emitted_cons,
        Transducer.after_cons, emits, stays, scanner_settled_close, List.take_left, List.nil_append,
        List.cons_append, pushBraceBuf_cons,
        show (before ++ '}' :: after).drop (before.length + 1) = after by
          rw [List.drop_append]; simp]
      split
      · subst after
        exact ⟨by simp, rfl⟩
      · obtain ⟨opens, held⟩ := openBrace_eq spaces.2.2 ‹_›
        rw [scanner.emitted_append, Transducer.emitted_cons, Transducer.emitted_nil,
          List.append_nil] at opens
        rw [scanner.after_append, Transducer.after_cons, Transducer.after_nil] at held
        rw [held, opens]
        simp
    · obtain ⟨emits, stays⟩ := scanner_settled spaces absent content
      rw [missing, Scan.ofBraceBuf, emits, stays]
      exact ⟨rfl, rfl⟩

/-! ## Lines -/

theorem markers_not_found {part : Text} (none : comment part = []) :
    find ['/', '/'] part = Option.none ∧ find ['#'] part = Option.none := by
  constructor
  · rw [find_marker (List.cons_ne_nil _ _) (fun text starts => by simp [commentAt, starts]), none]
    rfl
  · rw [find_marker (List.cons_ne_nil _ _) (fun text starts => by simp [commentAt, starts]), none]
    rfl

/-- The parts of a line after one that has no comment. -/
theorem addParts_word (braceBuf : Text) {word : Text} (spaces : ' ' ∉ word)
    (none : comment word = []) (rest : Text) :
    ∃ next, Scan.ofBraceBuf next = scanner.after (.ofBraceBuf braceBuf) (word ++ [' ']) ∧
      addParts braceBuf (split (word ++ ' ' :: rest) ' ') =
        scanner.emitted (.ofBraceBuf braceBuf) (word ++ [' ']) ++
          addParts next (split rest ' ') := by
  rw [split_append_cons spaces]
  split
  · subst word
    refine ⟨braceBuf, ?_, ?_⟩ <;> cases braceBuf <;> rfl
  · obtain ⟨emits, held⟩ := addPart_eq braceBuf spaces ‹_›
    obtain ⟨slashes, hash⟩ := markers_not_found none
    refine ⟨_, held, ?_⟩
    rw [List.cons_append, List.nil_append, addParts, slashes, hash, ← emits]

/-- Of a line without a comment, the loop is the transducer. -/
theorem addParts_of_comment_nil {line : Text} (none : comment line = []) (braceBuf : Text) :
    addParts braceBuf (split line ' ') = scanner.run (.ofBraceBuf braceBuf) line := by
  induction line using line_induction generalizing braceBuf with
  | last word spaces =>
    rw [split_of_not_mem spaces, scanner_run]
    split
    · subst word
      cases braceBuf <;> rfl
    · obtain ⟨emits, -⟩ := addPart_eq braceBuf spaces ‹_›
      obtain ⟨slashes, hash⟩ := markers_not_found none
      rw [addParts, slashes, hash, ← emits]
      exact List.append_nil _
  | cons word rest spaces ih =>
    have before : comment word = [] := by
      by_contra some_
      rw [(body_append_of_comment some_ rest).2] at none
      simp at none
    rw [(body_append_space before rest).2] at none
    obtain ⟨next, held, parts⟩ := addParts_word braceBuf spaces before rest
    have cut : word ++ ' ' :: rest = word ++ [' '] ++ rest := by simp
    rw [parts, ih none, held, cut, scanner.run_append]

/-- What a comment makes tokens of: the group that is open, and the part that it is in. -/
def Scan.content : Scan → Text
  | .outside _ => []
  | .fresh content => content
  | .settled content => content

/-- The loop over the parts of the body of a line with a comment; the state is the one at the start
of a part, with the part. -/
def cutter : Transducer (Scan × Text) Char Text where
  next
    | (start, part), c =>
      if c = ' ' then
        (scanner.emitted start (part ++ [' ']), scanner.after start (part ++ [' ']), [])
      else ([], start, part ++ [c])
  last
    | (start, part) => pushPart start.content ++ pushPart part

@[simp] theorem cutter_space (start : Scan) (part : Text) : cutter.next (start, part) ' ' =
    (scanner.emitted start (part ++ [' ']), scanner.after start (part ++ [' ']), []) := rfl

theorem cutter_other {c : Char} (space : c ≠ ' ') (start : Scan) (part : Text) :
    cutter.next (start, part) c = ([], start, part ++ [c]) := by
  simp [cutter, space]

theorem cutter_part {text : Text} (spaces : ' ' ∉ text) (start : Scan) (part : Text) :
    cutter.emitted (start, part) text = [] ∧
      cutter.after (start, part) text = (start, part ++ text) := by
  refine cutter.collects (fun part => (start, part)) (fun held c member => ?_) part
  exact cutter_other (fun same => spaces (same ▸ member)) start held

theorem pushBraceBuf_eq (braceBuf : Text) :
    pushBraceBuf braceBuf = pushPart (Scan.ofBraceBuf braceBuf).content := by
  cases braceBuf with
  | nil => rfl
  | cons c content => exact pushBraceBuf_cons c content

section Cut

variable (braceBuf : Text) {part : Text} (rest : List Text) (some_ : comment part ≠ [])
  (spaces : ' ' ∉ part)

include some_ spaces

omit some_ in
private theorem word_comment : (comment part).takeWhile (fun c => c ≠ ' ') = comment part := by
  rw [List.takeWhile_eq_self_iff]
  intro c member
  have inside : c ∈ part := body_append_comment part ▸ List.mem_append_right _ member
  exact decide_eq_true fun space => spaces (space ▸ inside)

omit some_ spaces in
private theorem take_body (part : Text) (more : ℕ) :
    part.take (more + (body part).length) = body part ++ (comment part).take more := by
  calc
    _ = (body part ++ comment part).take ((body part).length + more) := by
      rw [body_append_comment, Nat.add_comm]
    _ = _ := List.take_length_add_append more

/-- The comment of a part that is cut in the right place. -/
theorem addParts_cut (marked : Marked (comment part)) :
    addParts braceBuf (part :: rest) = pushBraceBuf braceBuf ++ pushPart (body part) := by
  have slashes := find_marker (List.cons_ne_nil '/' ['/'])
    (fun text starts => by simp [commentAt, starts]) part
  have hash := find_marker (List.cons_ne_nil '#' [])
    (fun text starts => by simp [commentAt, starts]) part
  have cut := take_body part 0
  rw [List.take_zero, List.append_nil] at cut
  rcases marked with starts | missing
  · rw [find_of_isPrefixOf starts, Option.map_some] at slashes
    rw [addParts, slashes]
    simp only [cut]
  · rw [word_comment spaces] at missing
    rw [missing, Option.map_none] at slashes
    have starts : ['#'].isPrefixOf (comment part) = true := by
      have either := (comment_cases part).resolve_left some_
      rw [commentAt, Bool.or_eq_true] at either
      rcases either with hash | slashes
      · exact hash
      · rw [find_of_isPrefixOf slashes] at missing
        cases missing
    rw [find_of_isPrefixOf starts, Option.map_some] at hash
    rw [addParts, slashes, hash]
    simp only [cut]

/-- The comment of a part that is cut in the wrong place. -/
theorem addParts_miscut (marked : ¬ Marked (comment part)) :
    ∃ token ∈ addParts braceBuf (part :: rest), '#' ∈ token := by
  have slashes := find_marker (List.cons_ne_nil '/' ['/'])
    (fun text starts => by simp [commentAt, starts]) part
  obtain ⟨other, found⟩ := not_or.mp marked
  rw [word_comment spaces] at found
  obtain ⟨pos, found⟩ := Option.ne_none_iff_exists'.mp found
  have either := (comment_cases part).resolve_left some_
  rw [commentAt, Bool.or_eq_true, or_iff_left other] at either
  obtain ⟨later, same⟩ := List.isPrefixOf_iff_prefix.mp either
  rw [found, Option.map_some] at slashes
  have positive : ∃ before, pos = before + 1 := by
    rw [← same] at found
    have skip : find ['/', '/'] (['#'] ++ later) = (find ['/', '/'] later).map (· + 1) := by
      simp [find, List.isPrefixOf]
    rw [skip, Option.map_eq_some_iff] at found
    obtain ⟨before, -, rfl⟩ := found
    exact ⟨before, rfl⟩
  obtain ⟨before, rfl⟩ := positive
  have hash : '#' ∈ part.take (before + 1 + (body part).length) := by
    rw [take_body, ← same]
    simp
  refine ⟨_, ?_, hash⟩
  rw [addParts, slashes]
  exact List.mem_append_right _ (by rw [pushPart_of_ne (List.ne_nil_of_mem hash)]; simp)

end Cut

/-- Only the first word of a comment matters. -/
theorem marked_append {word : Text} (nonempty : word ≠ []) (spaces : ' ' ∉ word) (rest : Text) :
    Marked (word ++ ' ' :: rest) ↔ Marked word := by
  have inside : ∀ c ∈ word, decide (c ≠ ' ') = true := fun c member =>
    decide_eq_true fun space => spaces (space ▸ member)
  have first : ['/', '/'].isPrefixOf (word ++ ' ' :: rest) = ['/', '/'].isPrefixOf word := by
    match word, nonempty with
    | [c], _ => simp [List.isPrefixOf]
    | c :: d :: word, _ => rfl
  rw [Marked, Marked, first, List.takeWhile_append_of_pos inside,
    List.takeWhile_eq_self_iff.mpr inside, List.takeWhile_cons_of_neg (by simp), List.append_nil]

theorem ne_nil_of_comment {line : Text} (some_ : comment line ≠ []) : line ≠ [] := by
  rintro rfl
  exact some_ rfl

theorem space_not_mem_body {word : Text} (spaces : ' ' ∉ word) : ' ' ∉ body word := by
  rw [← body_append_comment word, List.mem_append, not_or] at spaces
  exact spaces.1

theorem space_not_mem_comment {word : Text} (spaces : ' ' ∉ word) : ' ' ∉ comment word := by
  rw [← body_append_comment word, List.mem_append, not_or] at spaces
  exact spaces.2

theorem cutter_run_part {text : Text} (spaces : ' ' ∉ text) (start : Scan) :
    cutter.run (start, []) text = pushPart start.content ++ pushPart text := by
  obtain ⟨emits, stays⟩ := cutter_part spaces start []
  rw [Transducer.run, emits, stays]
  rfl

/-- Of a line with a comment, the loop is the other transducer over its body. -/
theorem addParts_of_comment {line : Text} (some_ : comment line ≠ [])
    (marked : Marked (comment line)) (braceBuf : Text) :
    addParts braceBuf (split line ' ') = cutter.run (.ofBraceBuf braceBuf, []) (body line) := by
  induction line using line_induction generalizing braceBuf with
  | last word spaces =>
    rw [split_of_not_mem spaces, if_neg (ne_nil_of_comment some_),
      addParts_cut braceBuf [] some_ spaces marked, pushBraceBuf_eq,
      cutter_run_part (space_not_mem_body spaces)]
  | cons word rest spaces ih =>
    by_cases none : comment word = []
    · obtain ⟨before, after⟩ := body_append_space none rest
      rw [after] at some_ marked
      obtain ⟨next, held, parts⟩ := addParts_word braceBuf spaces none rest
      obtain ⟨emits, stays⟩ := cutter_part spaces (.ofBraceBuf braceBuf) []
      rw [parts, ih some_ marked, before, cutter.run_append, emits, stays, cutter.run_cons,
        cutter_space, held]
      rfl
    · obtain ⟨before, after⟩ := body_append_of_comment none rest
      rw [after, marked_append none (space_not_mem_comment spaces)] at marked
      rw [split_append_cons spaces, if_neg (ne_nil_of_comment none), List.singleton_append,
        addParts_cut braceBuf _ none spaces marked, before, pushBraceBuf_eq,
        cutter_run_part (space_not_mem_body spaces)]

/-- Of a line whose comment is cut in the wrong place, a token has a character of it. -/
theorem addParts_of_unmarked {line : Text} (some_ : comment line ≠ [])
    (marked : ¬ Marked (comment line)) (braceBuf : Text) :
    ∃ token ∈ addParts braceBuf (split line ' '), '#' ∈ token := by
  induction line using line_induction generalizing braceBuf with
  | last word spaces =>
    rw [split_of_not_mem spaces, if_neg (ne_nil_of_comment some_)]
    exact addParts_miscut braceBuf [] some_ spaces marked
  | cons word rest spaces ih =>
    by_cases none : comment word = []
    · rw [(body_append_space none rest).2] at some_ marked
      obtain ⟨next, -, parts⟩ := addParts_word braceBuf spaces none rest
      obtain ⟨token, member, hash⟩ := ih some_ marked next
      rw [parts]
      exact ⟨token, List.mem_append_right _ member, hash⟩
    · rw [(body_append_of_comment none rest).2,
        marked_append none (space_not_mem_comment spaces)] at marked
      rw [split_append_cons spaces, if_neg (ne_nil_of_comment none), List.singleton_append]
      exact addParts_miscut braceBuf _ none spaces marked

/-! ## Empty tokens -/

theorem ne_nil_of_mem_pushPart {part token : Text} (member : token ∈ pushPart part) :
    token ≠ [] := by
  rw [pushPart] at member
  split at member
  · cases member
  · rwa [List.mem_singleton.mp member]

theorem ne_nil_of_mem_pushBraceBuf {braceBuf token : Text}
    (member : token ∈ pushBraceBuf braceBuf) : token ≠ [] := by
  rw [pushBraceBuf_eq] at member
  exact ne_nil_of_mem_pushPart member

theorem ne_nil_of_mem_openBrace {part : Text} (nonempty : part ≠ []) {token : Text}
    (member : token ∈ (openBrace part).1) : token ≠ [] := by
  rw [openBrace] at member
  split at member
  · exact ne_nil_of_mem_pushPart member
  · rwa [List.mem_singleton.mp member]

theorem ne_nil_of_mem_addPart {braceBuf part : Text} (nonempty : part ≠ []) {token : Text}
    (member : token ∈ (addPart braceBuf part).1) : token ≠ [] := by
  rw [addPart] at member
  split at member
  · exact ne_nil_of_mem_openBrace nonempty member
  · split at member
    · dsimp only at member
      split at member
      · exact ne_nil_of_mem_pushBraceBuf member
      · rcases List.mem_append.mp member with closed | opened
        · exact ne_nil_of_mem_pushBraceBuf closed
        · exact ne_nil_of_mem_openBrace ‹_› opened
    · cases member

theorem ne_nil_of_mem_addParts {parts : List Text} (nonempty : ∀ part ∈ parts, part ≠ [])
    (braceBuf : Text) : ∀ token ∈ addParts braceBuf parts, token ≠ [] := by
  induction parts generalizing braceBuf with
  | nil =>
    intro token member
    cases member
  | cons part rest ih =>
    intro token member
    rw [addParts] at member
    have cut (before : Text) (member : token ∈ pushBraceBuf braceBuf ++ pushPart before) :
        token ≠ [] := by
      rcases List.mem_append.mp member with closed | last
      · exact ne_nil_of_mem_pushBraceBuf closed
      · exact ne_nil_of_mem_pushPart last
    split at member
    · exact cut _ member
    · split at member
      · exact cut _ member
      · rcases List.mem_append.mp member with here | later
        · exact ne_nil_of_mem_addPart (nonempty part List.mem_cons_self) here
        · exact ih (fun part member => nonempty part (List.mem_cons_of_mem _ member)) _ token later

/-- The loop at the end of the function, which removes empty tokens, finds none. -/
theorem splitByWhitespaceAndRemoveComments_eq (data : Text) :
    splitByWhitespaceAndRemoveComments data = addParts [] (split data ' ') := by
  have nonempty : ∀ part ∈ split data ' ', part ≠ [] := fun part member => by
    have kept := (List.mem_filter.mp member).2
    rintro rfl
    cases kept
  have tokens := ne_nil_of_mem_addParts nonempty []
  rw [splitByWhitespaceAndRemoveComments]
  cases parts : addParts [] (split data ' ') with
  | nil => rfl
  | cons token rest =>
    have first : token ≠ [] := tokens token (parts ▸ List.mem_cons_self)
    rw [List.dropWhile_cons_of_neg]
    simpa using first

end Hakkun.Sail
