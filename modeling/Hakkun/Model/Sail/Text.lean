import Mathlib.Data.List.Basic

/-! # Text

What sail's parsers use of `std::string`, and `split` of sail's `include/util.h`. A text is the list
of its characters.
-/

namespace Hakkun.Sail

abbrev Text := List Char

/-- `std::string::find`. -/
def find (sub : Text) : Text → Option ℕ
  | [] => if sub = [] then some 0 else none
  | c :: rest => if sub.isPrefixOf (c :: rest) then some 0 else (find sub rest).map (· + 1)

/-- `split`, which leaves out what is empty. -/
def split (str : Text) (delim : Char) : List Text := (str.splitOn delim).filter fun s => !s.isEmpty

theorem find_of_isPrefixOf {sub text : Text} (starts : sub.isPrefixOf text = true) :
    find sub text = some 0 := by
  cases text with
  | nil => exact if_pos (List.prefix_nil.mp (List.isPrefixOf_iff_prefix.mp starts))
  | cons c rest => exact if_pos starts

/-- A character is found where it first is. -/
theorem find_singleton (c : Char) (text : Text) :
    (∃ before after, text = before ++ c :: after ∧ c ∉ before ∧
      find [c] text = some before.length) ∨ c ∉ text ∧ find [c] text = none := by
  induction text with
  | nil => exact .inr ⟨List.not_mem_nil, rfl⟩
  | cons head rest ih =>
    by_cases same : c = head
    · subst same
      exact .inl ⟨[], rest, rfl, List.not_mem_nil, by simp [find]⟩
    · have skip : find [c] (head :: rest) = (find [c] rest).map (· + 1) := by
        simp [find, List.isPrefixOf, same]
      rw [skip]
      rcases ih with ⟨before, after, parts, absent, found⟩ | ⟨absent, missing⟩
      · refine .inl ⟨head :: before, after, by rw [parts]; rfl, ?_, by rw [found]; rfl⟩
        rw [List.mem_cons, not_or]
        exact ⟨same, absent⟩
      · refine .inr ⟨?_, by rw [missing]; rfl⟩
        rw [List.mem_cons, not_or]
        exact ⟨same, absent⟩

/-- A line is a word, or a word and the rest after a space. -/
@[elab_as_elim]
theorem line_induction {motive : Text → Prop} (last : ∀ word, ' ' ∉ word → motive word)
    (cons : ∀ word rest, ' ' ∉ word → motive rest → motive (word ++ ' ' :: rest)) (line : Text) :
    motive line := by
  induction h : line.length using Nat.strongRecOn generalizing line with
  | _ n ih =>
    rcases find_singleton ' ' line with ⟨word, rest, rfl, inside, -⟩ | ⟨inside, -⟩
    · refine cons word rest inside (ih rest.length ?_ rest rfl)
      rw [← h, List.length_append, List.length_cons]
      omega
    · exact last line inside

/-- The part before the first delimiter, unless it is empty. -/
theorem split_append_cons {word rest : Text} {delim : Char} (inside : delim ∉ word) :
    split (word ++ delim :: rest) delim =
      (if word = [] then [] else [word]) ++ split rest delim := by
  have other : ∀ c ∈ word, (c == delim) = false := fun c member => by
    rw [beq_eq_false_iff_ne]
    rintro rfl
    exact inside member
  rw [split, split, List.splitOn, List.splitOnP_append_cons_of_forall_mem other delim (by simp),
    List.filter_cons]
  cases word <;> rfl

theorem split_of_not_mem {word : Text} {delim : Char} (inside : delim ∉ word) :
    split word delim = if word = [] then [] else [word] := by
  have other : ∀ c ∈ word, (c == delim) = false := fun c member => by
    rw [beq_eq_false_iff_ne]
    rintro rfl
    exact inside member
  rw [split, List.splitOn, List.splitOnP_eq_singleton other]
  cases word <;> rfl

end Hakkun.Sail
