import Mathlib.Data.List.Chain
import Mathlib.Data.List.Nodup

/-! # Circular doubly linked lists

A ring is a list of nodes in which consecutive ones are linked both ways, closed by its head at both
ends. Linking a node in between two neighbours and unlinking one are local edits of the list, and
following either link from the head reads the list forwards and backwards.
-/

namespace Hakkun.Machine

variable {α : Type*} {next prev next' prev' : α → α}

/-- Consecutive nodes of a list are linked both ways. -/
def Linked (next prev : α → α) (nodes : List α) : Prop :=
  nodes.IsChain fun x y => next x = y ∧ prev y = x

/-- The ring of a head and its members. -/
def Ring (next prev : α → α) (head : α) (members : List α) : Prop :=
  Linked next prev (head :: members ++ [head])

theorem linked_cons_cons {x y : α} {rest : List α} :
    Linked next prev (x :: y :: rest) ↔
      (next x = y ∧ prev y = x) ∧ Linked next prev (y :: rest) :=
  List.isChain_cons_cons

/-- Links read `next` of all nodes but the last and `prev` of all but the first. -/
theorem Linked.transport {nodes : List α} (linked : Linked next prev nodes)
    (nextKept : ∀ x ∈ nodes.dropLast, next' x = next x)
    (prevKept : ∀ y ∈ nodes.tail, prev' y = prev y) : Linked next' prev' nodes := by
  induction nodes with
  | nil => exact List.isChain_nil
  | cons x rest ih =>
    cases rest with
    | nil => exact List.isChain_singleton x
    | cons y rest =>
      obtain ⟨⟨forwards, backwards⟩, linked⟩ := linked_cons_cons.mp linked
      refine linked_cons_cons.mpr ⟨⟨?_, ?_⟩, ih linked ?_ ?_⟩
      · rw [nextKept x (by rw [List.dropLast_cons_cons]; exact List.mem_cons_self), forwards]
      · rw [prevKept y List.mem_cons_self, backwards]
      · exact fun z member => nextKept z (List.mem_cons_of_mem _ member)
      · exact fun z member => prevKept z (List.mem_cons_of_mem _ member)

variable [DecidableEq α]

/-- Linking a node in between two neighbours. -/
def linkNext (next : α → α) (a node b : α) : α → α :=
  Function.update (Function.update next node b) a node

def linkPrev (prev : α → α) (a node b : α) : α → α :=
  Function.update (Function.update prev node a) b node

/-- Unlinking the node between two neighbours; it is left linked to itself. -/
def unlinkNext (next : α → α) (a node b : α) : α → α :=
  Function.update (Function.update next a b) node node

def unlinkPrev (prev : α → α) (a node b : α) : α → α :=
  Function.update (Function.update prev b a) node node

@[simp] theorem unlinkNext_self (next : α → α) (a node b : α) :
    unlinkNext next a node b node = node := Function.update_self ..

@[simp] theorem unlinkPrev_self (prev : α → α) (a node b : α) :
    unlinkPrev prev a node b node = node := Function.update_self ..

theorem unlinkNext_of_ne {next : α → α} {a node b x : α} (notNode : x ≠ node) (notLeft : x ≠ a) :
    unlinkNext next a node b x = next x := by
  rw [unlinkNext, Function.update_of_ne notNode, Function.update_of_ne notLeft]

theorem unlinkPrev_of_ne {prev : α → α} {a node b y : α} (notNode : y ≠ node) (notRight : y ≠ b) :
    unlinkPrev prev a node b y = prev y := by
  rw [unlinkPrev, Function.update_of_ne notNode, Function.update_of_ne notRight]

theorem linkNext_of_ne {next : α → α} {a node b x : α} (notNode : x ≠ node) (notLeft : x ≠ a) :
    linkNext next a node b x = next x := by
  rw [linkNext, Function.update_of_ne notLeft, Function.update_of_ne notNode]

theorem linkPrev_of_ne {prev : α → α} {a node b y : α} (notNode : y ≠ node) (notRight : y ≠ b) :
    linkPrev prev a node b y = prev y := by
  rw [linkPrev, Function.update_of_ne notRight, Function.update_of_ne notNode]

section Neighbours

variable {head node a b : α} {p q : List α}

omit [DecidableEq α] in
/-- A ring is two chains and the link between the neighbours where they meet. -/
theorem ring_append {xs ys : List α} (left : head :: p = xs ++ [a]) (right : q ++ [head] = b :: ys) :
    Ring next prev head (p ++ q) ↔
      Linked next prev (xs ++ [a]) ∧ (next a = b ∧ prev b = a) ∧ Linked next prev (b :: ys) := by
  have shape : head :: (p ++ q) ++ [head] = xs ++ a :: b :: ys := by
    rw [List.cons_append, List.append_assoc, right, ← List.cons_append, left, List.append_assoc]
    rfl
  rw [Ring, shape]
  exact List.isChain_append_cons_cons

omit [DecidableEq α] in
theorem Ring.neighbours (ring : Ring next prev head (p ++ q))
    (left : (head :: p).getLast? = some a) (right : (q ++ [head]).head? = some b) :
    next a = b ∧ prev b = a := by
  obtain ⟨xs, left⟩ := List.getLast?_eq_some_iff.mp left
  obtain ⟨ys, right⟩ := List.head?_eq_some_iff.mp right
  exact ((ring_append left right).mp ring).2.1

/-- Linking a new node in. -/
theorem Ring.link (ring : Ring next prev head (p ++ q)) (distinct : (head :: (p ++ q)).Nodup)
    (fresh : node ∉ head :: (p ++ q)) (left : (head :: p).getLast? = some a)
    (right : (q ++ [head]).head? = some b) :
    Ring (linkNext next a node b) (linkPrev prev a node b) head (p ++ node :: q) := by
  obtain ⟨xs, left⟩ := List.getLast?_eq_some_iff.mp left
  obtain ⟨ys, right⟩ := List.head?_eq_some_iff.mp right
  obtain ⟨before, -, after⟩ := (ring_append left right).mp ring
  have sources : (xs ++ [a] ++ q).Nodup := by rwa [← left]
  have targets : (p ++ b :: ys).Nodup := by
    rw [← right, ← List.append_assoc]
    exact (List.perm_append_singleton head (p ++ q)).nodup_iff.mpr distinct
  have seen {x : α} (member : x ∈ head :: p ∨ x ∈ q ++ [head]) : x ≠ node := by
    rintro rfl
    apply fresh
    rcases member with member | member <;> simp only [List.mem_append, List.mem_cons] at member ⊢
    · exact member.imp_right .inl
    · rcases member with member | member | impossible
      · exact .inr (.inr member)
      · exact .inl member
      · exact (List.not_mem_nil impossible).elim
  rw [left, right] at seen
  have notNodeLeft : a ≠ node := seen (.inl (by simp))
  have notNodeRight : b ≠ node := seen (.inr (by simp))
  have right' : (node :: q) ++ [head] = node :: b :: ys := by rw [List.cons_append, right]
  rw [ring_append left right', linked_cons_cons]
  refine ⟨before.transport ?_ ?_, ⟨?_, ?_⟩, ⟨?_, ?_⟩, Linked.transport after ?_ ?_⟩
  · intro x member
    rw [List.dropLast_concat] at member
    refine linkNext_of_ne (seen (.inl (List.mem_append_left _ member))) ?_
    rintro rfl
    exact (List.nodup_append.mp (List.nodup_append.mp sources).1).2.2 _ member _
      (List.mem_singleton_self _) rfl
  · intro y member
    rw [← left] at member
    refine linkPrev_of_ne (seen (.inl (left ▸ List.mem_cons_of_mem _ member))) ?_
    rintro rfl
    exact (List.nodup_append.mp targets).2.2 _ member _ List.mem_cons_self rfl
  · exact Function.update_self ..
  · rw [linkPrev, Function.update_of_ne notNodeRight.symm, Function.update_self]
  · rw [linkNext, Function.update_of_ne notNodeLeft.symm, Function.update_self]
  · exact Function.update_self ..
  · intro x member
    rw [← right, List.dropLast_concat] at member
    refine linkNext_of_ne (seen (.inr (right ▸ List.mem_append_left _ member))) ?_
    rintro rfl
    exact (List.nodup_append.mp sources).2.2 _ (by simp) _ member rfl
  · intro y member
    refine linkPrev_of_ne (seen (.inr (List.mem_cons_of_mem _ member))) ?_
    rintro rfl
    exact (List.nodup_cons.mp (List.nodup_append.mp targets).2.1).1 member

/-- Unlinking a member. -/
theorem Ring.unlink (ring : Ring next prev head (p ++ node :: q))
    (distinct : (head :: (p ++ node :: q)).Nodup) (left : (head :: p).getLast? = some a)
    (right : (q ++ [head]).head? = some b) :
    Ring (unlinkNext next a node b) (unlinkPrev prev a node b) head (p ++ q) := by
  obtain ⟨xs, left⟩ := List.getLast?_eq_some_iff.mp left
  obtain ⟨ys, right⟩ := List.head?_eq_some_iff.mp right
  have right' : (node :: q) ++ [head] = node :: b :: ys := by rw [List.cons_append, right]
  obtain ⟨before, -, after⟩ := (ring_append left right').mp ring
  obtain ⟨-, after⟩ := linked_cons_cons.mp after
  have sources : (xs ++ [a] ++ node :: q).Nodup := by rwa [← left]
  have targets : (p ++ node :: b :: ys).Nodup := by
    rw [← right', ← List.append_assoc]
    exact (List.perm_append_singleton head (p ++ node :: q)).nodup_iff.mpr distinct
  obtain ⟨sourcesLeft, sourcesRight, sourcesApart⟩ := List.nodup_append.mp sources
  obtain ⟨-, targetsRight, targetsApart⟩ := List.nodup_append.mp targets
  have notNodeLeft : a ≠ node := sourcesApart _ (by simp) _ List.mem_cons_self
  have notNodeRight : b ≠ node := by
    rintro rfl
    exact (List.nodup_cons.mp targetsRight).1 List.mem_cons_self
  rw [ring_append left right]
  refine ⟨before.transport ?_ ?_, ⟨?_, ?_⟩, Linked.transport after ?_ ?_⟩
  · intro x member
    rw [List.dropLast_concat] at member
    refine unlinkNext_of_ne (sourcesApart _ (List.mem_append_left _ member) _ List.mem_cons_self) ?_
    exact (List.nodup_append.mp sourcesLeft).2.2 _ member _ (List.mem_singleton_self _)
  · intro y member
    rw [← left] at member
    exact unlinkPrev_of_ne (targetsApart _ member _ List.mem_cons_self)
      (targetsApart _ member _ (List.mem_cons_of_mem _ List.mem_cons_self))
  · rw [unlinkNext, Function.update_of_ne notNodeLeft, Function.update_self]
  · rw [unlinkPrev, Function.update_of_ne notNodeRight, Function.update_self]
  · intro x member
    rw [← right, List.dropLast_concat] at member
    refine unlinkNext_of_ne ?_ ?_
    · rintro rfl
      exact (List.nodup_cons.mp sourcesRight).1 member
    · exact (sourcesApart _ (by simp) _ (List.mem_cons_of_mem _ member)).symm
  · intro y member
    refine unlinkPrev_of_ne ?_ ?_
    · rintro rfl
      exact (List.nodup_cons.mp targetsRight).1 (List.mem_cons_of_mem _ member)
    · rintro rfl
      exact (List.nodup_cons.mp (List.nodup_cons.mp targetsRight).2).1 member

end Neighbours

/-- Reading a list by one kind of link until the head comes back; `none` is out of fuel. -/
def collect (step : α → α) (head : α) : ℕ → α → Option (List α)
  | 0, _ => none
  | fuel + 1, current =>
    if current = head then some [] else (collect step head fuel (step current)).map (current :: ·)

/-- Along `next` a ring is read forwards. -/
theorem Ring.collect_next {head : α} {members : List α} (ring : Ring next prev head members)
    (distinct : (head :: members).Nodup) {fuel : ℕ} (enough : members.length < fuel) :
    collect next head fuel (next head) = some members := by
  suffices general : ∀ (start : α) (rest : List α) (fuel : ℕ),
      Linked next prev (start :: rest ++ [head]) → head ∉ rest → rest.length < fuel →
        collect next head fuel (next start) = some rest from
    general head members fuel ring (List.nodup_cons.mp distinct).1 enough
  intro start rest
  induction rest generalizing start with
  | nil =>
    intro fuel linked _ enough
    obtain ⟨fuel, rfl⟩ := Nat.exists_eq_succ_of_ne_zero (Nat.pos_iff_ne_zero.mp enough)
    obtain ⟨⟨forwards, -⟩, -⟩ := linked_cons_cons.mp linked
    rw [forwards, collect, if_pos rfl]
  | cons node rest ih =>
    intro fuel linked absent enough
    obtain ⟨fuel, rfl⟩ := Nat.exists_eq_succ_of_ne_zero (Nat.pos_iff_ne_zero.mp (Nat.zero_lt_of_lt enough))
    obtain ⟨⟨forwards, -⟩, linked⟩ := linked_cons_cons.mp linked
    have other : node ≠ head := fun same => absent (same ▸ List.mem_cons_self)
    rw [forwards, collect, if_neg other,
      ih node fuel linked (fun member => absent (List.mem_cons_of_mem _ member))
        (Nat.lt_of_succ_lt_succ enough)]
    rfl

omit [DecidableEq α] in
/-- The same ring, read the other way round. -/
theorem Ring.reverse {head : α} {members : List α} (ring : Ring next prev head members) :
    Ring prev next head members.reverse := by
  have flipped : head :: members.reverse ++ [head] = (head :: members ++ [head]).reverse := by
    simp
  rw [Ring, Linked, flipped, List.isChain_reverse]
  exact ring.imp fun x y => And.symm

/-- Along `prev` a ring is read backwards. -/
theorem Ring.collect_prev {head : α} {members : List α} (ring : Ring next prev head members)
    (distinct : (head :: members).Nodup) {fuel : ℕ} (enough : members.length < fuel) :
    collect prev head fuel (prev head) = some members.reverse := by
  refine ring.reverse.collect_next ?_ (by rwa [List.length_reverse])
  rw [List.nodup_cons, List.mem_reverse, List.nodup_reverse]
  exact List.nodup_cons.mp distinct

end Hakkun.Machine
