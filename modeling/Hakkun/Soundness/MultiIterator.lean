import Hakkun.Machine.Core.Fuel
import Hakkun.Model.Util.MultiIterator

/-! # Iterating over several containers

The levels of the containers before the current one are at their ends, those after it at their
beginnings. From there the iteration visits the current container and goes to the next one. Nothing
looks whether that one has an element before it is dereferenced, so that the iteration is the one
over the concatenation when no container is empty.
-/

namespace Hakkun.Util

open Machine.Core

variable {To : Type}

/-! ## The levels -/

namespace MultiIteratorElement

variable {before after : List (MultiIteratorElement To)} {element : MultiIteratorElement To}

/-- A step changes the level of the current container. -/
theorem next_append (Index : ℕ) (before after : List (MultiIteratorElement To))
    (element : MultiIteratorElement To) :
    next Index (before ++ element :: after) (Index + before.length) =
      (before ++ element.increment :: after,
        if element.mCurIter + 1 = element.mCurIterEnd then Index + before.length + 1
        else Index + before.length) := by
  induction before generalizing Index with
  | nil => exact if_pos (Nat.add_zero Index)
  | cons level before ih =>
    have other : ¬ Index + (before.length + 1) = Index := by omega
    have following := ih (Index + 1)
    rw [Nat.add_right_comm, Nat.add_assoc Index before.length 1] at following
    rw [List.cons_append, next, List.length_cons, if_neg other, following]
    rfl

theorem getReference_append (Index : ℕ) (before after : List (MultiIteratorElement To))
    (element : MultiIteratorElement To) :
    getReference Index (before ++ element :: after) (Index + before.length) =
      match element.container[element.mCurIter]? with
      | some value => .ok value
      | none => .error .endIterator := by
  induction before generalizing Index with
  | nil => exact if_pos (Nat.add_zero Index)
  | cons level before ih =>
    have other : ¬ Index + (before.length + 1) = Index := by omega
    have following := ih (Index + 1)
    rw [Nat.add_right_comm, Nat.add_assoc Index before.length 1] at following
    rw [List.cons_append, getReference, List.length_cons, if_neg other, following]

theorem isEqual_iff (elements : List (MultiIteratorElement To)) (index other : ℕ) :
    isEqual elements index other = true ↔
      index = other ∧ ∀ element ∈ elements, element.mCurIter = element.mCurIterEnd := by
  induction elements with
  | nil => simp [isEqual]
  | cons element rest ih =>
    rw [isEqual, Bool.and_eq_true, ih, List.forall_mem_cons, beq_iff_eq, and_assoc,
      and_comm (b := element.mCurIter = element.mCurIterEnd)]

end MultiIteratorElement

/-! ## The run -/

namespace MultiIterator

/-- The iterator that has passed some containers and some elements of the next one. -/
def inside (passed : List (List To)) (seen unseen : List To) (rest : List (List To)) :
    MultiIterator To :=
  ⟨passed.map .ofEnd ++ ⟨seen ++ unseen, seen.length, (seen ++ unseen).length⟩ ::
    rest.map .ofBegin, passed.length⟩

/-- The iterator that has passed some containers. -/
def between (passed rest : List (List To)) : MultiIterator To :=
  ⟨passed.map .ofEnd ++ rest.map .ofBegin, passed.length⟩

theorem between_cons (passed : List (List To)) (container : List To) (rest : List (List To)) :
    between passed (container :: rest) = inside passed [] container rest := rfl

variable {passed rest : List (List To)} {seen unseen : List To} {value : To}

theorem deref_inside : (inside passed seen unseen rest).deref =
    match unseen with
    | value :: _ => .ok value
    | [] => .error .endIterator := by
  have reference := MultiIteratorElement.getReference_append 0 (passed.map .ofEnd)
    (rest.map .ofBegin) ⟨seen ++ unseen, seen.length, (seen ++ unseen).length⟩
  rw [List.length_map, Nat.zero_add, List.getElem?_append_right (Nat.le_refl _),
    Nat.sub_self] at reference
  rw [deref, inside, reference]
  cases unseen <;> rfl

/-- A step inside a container with more elements. -/
theorem increment_inside {other : To} :
    (inside passed seen (value :: other :: unseen) rest).increment =
      inside passed (seen ++ [value]) (other :: unseen) rest := by
  have step := MultiIteratorElement.next_append 0 (passed.map .ofEnd) (rest.map .ofBegin)
    ⟨seen ++ value :: other :: unseen, seen.length, (seen ++ value :: other :: unseen).length⟩
  have more : ¬ seen.length + 1 = (seen ++ value :: other :: unseen).length := by
    simp only [List.length_append, List.length_cons]
    omega
  rw [List.length_map, Nat.zero_add, if_neg more] at step
  rw [increment, inside, step]
  simp only [inside, MultiIteratorElement.increment, List.append_assoc, List.length_append,
    List.singleton_append, List.length_singleton]

/-- A step from the last element of a container. -/
theorem increment_last : (inside passed seen [value] rest).increment =
    between (passed ++ [seen ++ [value]]) rest := by
  have step := MultiIteratorElement.next_append 0 (passed.map .ofEnd) (rest.map .ofBegin)
    ⟨seen ++ [value], seen.length, (seen ++ [value]).length⟩
  have last : seen.length + 1 = (seen ++ [value]).length := by
    rw [List.length_append, List.length_singleton]
  rw [List.length_map, Nat.zero_add, if_pos last] at step
  rw [increment, inside, step]
  simp only [between, MultiIteratorElement.increment, MultiIteratorElement.ofEnd,
    List.map_append, List.map_cons, List.map_nil, List.append_assoc, List.singleton_append,
    List.length_append, List.length_singleton]

/-- The iterator is at the end after the last container alone. -/
theorem isEqual_finish (containers : List (List To)) (elements : List (MultiIteratorElement To))
    (bound : passed.length < containers.length) :
    isEqual ⟨elements, passed.length⟩ (MultiIteratable.finish containers) = false := by
  rw [← Bool.not_eq_true, isEqual, MultiIteratorElement.isEqual_iff]
  rintro ⟨same, _⟩
  exact Nat.ne_of_lt bound same

end MultiIterator

open MultiIterator

/-- What comes before the rest of a loop. -/
def visitFirst (first : List To) (later : List To × LoopStatus) : List To × LoopStatus :=
  (first ++ later.1, later.2)

variable {containers passed more rest : List (List To)} {seen unseen : List To}

/-- The loop visits the rest of the current container. -/
theorem rangeFor_inside (turns : ℕ) (total : passed.length < containers.length) (seen : List To)
    (value : To) :
    rangeFor (MultiIteratable.finish containers) (turns + (value :: unseen).length)
        (inside passed seen (value :: unseen) rest) =
      visitFirst (value :: unseen) (rangeFor (MultiIteratable.finish containers) turns
        (between (passed ++ [seen ++ value :: unseen]) rest)) := by
  induction unseen generalizing seen value with
  | nil =>
    have unequal := isEqual_finish containers (inside passed seen [value] rest).elements total
    rw [List.length_singleton, rangeFor, deref_inside, increment_last]
    exact if_neg (Bool.not_eq_true _ ▸ unequal)
  | cons other unseen ih =>
    have unequal :=
      isEqual_finish containers (inside passed seen (value :: other :: unseen) rest).elements total
    have later := ih (seen ++ [value]) other
    rw [List.length_cons, ← Nat.add_assoc, rangeFor, deref_inside, increment_inside]
    refine (if_neg (Bool.not_eq_true _ ▸ unequal)).trans ?_
    dsimp only
    rw [later, List.append_assoc]
    rfl

/-- The loop visits any number of containers with elements. -/
theorem rangeFor_between (turns : ℕ) (passed : List (List To))
    (nonempty : ∀ container ∈ more, container ≠ [])
    (total : passed.length + more.length + rest.length = containers.length) :
    rangeFor (MultiIteratable.finish containers) (turns + more.flatten.length)
        (between passed (more ++ rest)) =
      visitFirst more.flatten (rangeFor (MultiIteratable.finish containers) turns
        (between (passed ++ more) rest)) := by
  induction more generalizing passed with
  | nil => rw [List.append_nil]; rfl
  | cons container more ih =>
    obtain ⟨present, others⟩ := List.forall_mem_cons.mp nonempty
    obtain ⟨value, unseen, rfl⟩ := List.exists_cons_of_ne_nil present
    have bound : passed.length < containers.length := by
      simp only [List.length_cons] at total
      omega
    have later := ih (passed ++ [value :: unseen]) others (by
      simp only [List.length_append, List.length_cons, List.length_nil] at total ⊢
      omega)
    rw [List.flatten_cons, List.length_append, Nat.add_comm (value :: unseen).length,
      ← Nat.add_assoc, List.cons_append, between_cons, rangeFor_inside _ bound, List.nil_append,
      later, List.append_assoc]
    simp only [visitFirst, List.append_assoc, List.singleton_append]

/-- The loop with every container passed. -/
theorem rangeFor_finish (turns : ℕ) :
    rangeFor (MultiIteratable.finish containers) (turns + 1) (between containers []) =
      ([], .stopped) := by
  refine if_pos ?_
  rw [isEqual, MultiIteratorElement.isEqual_iff]
  refine ⟨rfl, fun element member => ?_⟩
  rw [between, List.map_nil, List.append_nil] at member
  obtain ⟨container, _, rfl⟩ := List.mem_map.mp member
  rfl

/-- The loop at a container without elements. -/
theorem rangeFor_empty (turns : ℕ) (total : passed.length < containers.length) :
    rangeFor (MultiIteratable.finish containers) (turns + 1) (between passed ([] :: rest)) =
      ([], .fault .endIterator) := by
  have unequal := isEqual_finish containers (inside passed [] [] rest).elements total
  rw [between_cons, rangeFor, deref_inside]
  exact if_neg (Bool.not_eq_true _ ▸ unequal)

/-- The iteration visits the concatenation in order and stops. -/
def Visits (containers : List (List To)) : Prop :=
  Ends (fun turns => rangeFor (MultiIteratable.finish containers) turns
    (MultiIteratable.begin containers)) (containers.flatten, .stopped)

/-- From the beginning, the loop over the first containers, if these have elements. -/
theorem Ends.rangeFor_begin {first rest : List (List To)} {result : List To × LoopStatus}
    (nonempty : ∀ container ∈ first, container ≠ [])
    (later : ∀ turns, rangeFor (MultiIteratable.finish (first ++ rest)) (turns + 1)
      (between first rest) = result) :
    Ends (fun turns => rangeFor (MultiIteratable.finish (first ++ rest)) turns
      (MultiIteratable.begin (first ++ rest))) (visitFirst first.flatten result) := by
  refine Filter.eventually_atTop.mpr ⟨first.flatten.length + 1, fun turns enough => ?_⟩
  obtain ⟨left, rfl⟩ := Nat.exists_eq_add_of_le' enough
  have total : ([] : List (List To)).length + first.length + rest.length =
      (first ++ rest).length := by
    rw [List.length_append, List.length_nil, Nat.zero_add]
  have run := rangeFor_between (left + 1) [] nonempty total
  rw [List.nil_append, later left] at run
  rw [Nat.add_comm first.flatten.length, ← Nat.add_assoc]
  exact run

/-- The iteration is right when no container is empty, and only then. -/
theorem visits_iff (containers : List (List To)) :
    Visits containers ↔ ∀ container ∈ containers, container ≠ [] := by
  constructor
  · intro visits container member empty
    obtain ⟨first, rest, split, absent⟩ := List.eq_append_cons_of_mem (empty ▸ member)
    have nonempty (other : List To) (earlier : other ∈ first) : other ≠ [] := by
      rintro rfl
      exact absent earlier
    have bound : first.length < (first ++ [] :: rest).length := by
      rw [List.length_append, List.length_cons]
      omega
    rw [split] at visits
    have fault := Ends.rangeFor_begin nonempty fun turns => rangeFor_empty turns bound
    exact LoopStatus.noConfusion (congrArg Prod.snd (visits.unique fault))
  · intro nonempty
    have finishes (turns : ℕ) : rangeFor (MultiIteratable.finish (containers ++ [])) (turns + 1)
        (between containers []) = ([], .stopped) := by
      rw [List.append_nil]
      exact rangeFor_finish turns
    have done := Ends.rangeFor_begin nonempty finishes
    rw [List.append_nil, visitFirst, List.append_nil] at done
    exact done

/-- An empty container in the middle. -/
theorem not_visits : ¬ Visits [[1], [], [2]] := by
  intro visits
  have fault : Ends (fun turns => rangeFor (MultiIteratable.finish [[1], [], [2]]) turns
      (MultiIteratable.begin [[1], [], [2]])) ([1], .fault .endIterator) :=
    .of_succ (.of_succ (.of_forall fun _ => rfl))
  exact LoopStatus.noConfusion (congrArg Prod.snd (visits.unique fault))

end Hakkun.Util
