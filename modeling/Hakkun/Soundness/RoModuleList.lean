import Hakkun.Model.Rtld.RoModuleList

/-! # The list of loaded modules stays a ring

A history pairs the links with the list of modules that the operations describe and with the modules
they have removed. Every operation links one module in between two neighbours or unlinks one, so the
links stay a ring of the described list; both directions then read that list.
-/

namespace Hakkun.Rtld

open Machine RoModuleList

variable {M : Type*} [DecidableEq M]

/-- The links, the described list, and the modules that have been removed and not inserted again. -/
structure History (M : Type*) where
  links : RoModuleList M
  members : List M
  removed : List M

/-- Before a position; before the list itself is its end. -/
def insertedBefore (members : List M) (pos : Ref M) (m : M) : List M :=
  match pos with
  | .this => members ++ [m]
  | .module p => members.flatMap fun x => if x = p then [m, x] else [x]

/-- After a position; after the list itself is its start. -/
def insertedAfter (members : List M) (pos : Ref M) (m : M) : List M :=
  match pos with
  | .this => m :: members
  | .module p => members.flatMap fun x => if x = p then [x, m] else [x]

/-- What an operation describes: the list after it. -/
def Operation.describe (members : List M) : Operation M → List M
  | .pushFront (some m) => m :: members
  | .pushBack (some m) => members ++ [m]
  | .popFront => members.tail
  | .popBack => members.dropLast
  | .insertBefore (some pos) (some m) => insertedBefore members pos m
  | .insertAfter (some pos) (some m) => insertedAfter members pos m
  | .remove (some (.module m)) => members.erase m
  | _ => members

/-- One operation. A module is removed when it leaves the list, until it is inserted again. -/
def History.step (history : History M) (operation : Operation M) : Option (History M) :=
  let members := operation.describe history.members
  some {
    links := operation.run history.links
    members := members
    removed := (history.removed ++ history.members).filter (· ∉ members) }

/-- An inserted module is not in the list, a position is, and a removed module is in the list or has
been removed before. -/
def History.Admissible (history : History M) : Operation M → Prop
  | .pushFront (some m) | .pushBack (some m) => m ∉ history.members
  | .insertBefore (some pos) (some m) | .insertAfter (some pos) (some m) =>
    m ∉ history.members ∧ ∀ p, pos = .module p → p ∈ history.members
  | .remove (some (.module m)) => m ∈ history.members ∨ m ∈ history.removed
  | _ => True

/-- The start of a history: a constructed list, over whatever is in memory. -/
def History.start (memory : RoModuleList M) : History M :=
  { links := construct memory, members := [], removed := [] }

/-- The links are a circular doubly linked list of the described modules, each of them once; both
directions read them; removed modules are detached. -/
structure History.WellFormed (history : History M) : Prop where
  ring : Ring history.links.next history.links.prev .this (history.members.map .module)
  nodup : history.members.Nodup
  forward : ∀ fuel > history.members.length,
    history.links.iterate true fuel = some (history.members.map .module)
  reverse : ∀ fuel > history.members.length,
    history.links.iterate false fuel = some (history.members.reverse.map .module)
  detached : ∀ m ∈ history.removed, m ∉ history.members ∧
    history.links.next (.module m) = .module m ∧ history.links.prev (.module m) = .module m

/-- The part of it that operations preserve. -/
structure History.Inv (history : History M) : Prop where
  ring : Ring history.links.next history.links.prev .this (history.members.map .module)
  nodup : history.members.Nodup
  detached : ∀ m ∈ history.removed, m ∉ history.members ∧
    history.links.next (.module m) = .module m ∧ history.links.prev (.module m) = .module m

omit [DecidableEq M] in
theorem module_injective : Function.Injective (Ref.module : M → Ref M) :=
  fun _ _ same => Ref.module.inj same

omit [DecidableEq M] in
theorem this_ne (m : M) : Ref.this ≠ Ref.module m := nofun

omit [DecidableEq M] in
theorem nodup_ring {members : List M} (nodup : members.Nodup) :
    (Ref.this :: members.map Ref.module).Nodup := by
  refine List.nodup_cons.mpr ⟨?_, nodup.map module_injective⟩
  simp

variable {history : History M}

theorem History.Inv.wellFormed (inv : history.Inv) : history.WellFormed where
  ring := inv.ring
  nodup := inv.nodup
  forward fuel enough :=
    inv.ring.collect_next (nodup_ring inv.nodup) (by rwa [List.length_map])
  reverse fuel enough := by
    rw [List.map_reverse]
    exact inv.ring.collect_prev (nodup_ring inv.nodup) (by rwa [List.length_map])
  detached := inv.detached

theorem History.Inv.start (memory : RoModuleList M) : (History.start memory).Inv where
  ring := by
    refine linked_cons_cons.mpr ⟨⟨?_, ?_⟩, List.isChain_singleton _⟩
    · exact Function.update_self Ref.this Ref.this memory.next
    · exact Function.update_self Ref.this Ref.this memory.prev
  nodup := List.nodup_nil
  detached m member := (List.not_mem_nil member).elim

/-- The neighbours of a place in the list. -/
def before (p : List M) : Ref M := (p.getLast?.map Ref.module).getD .this
def after (q : List M) : Ref M := (q.head?.map Ref.module).getD .this

omit [DecidableEq M] in
theorem getLast?_before (p : List M) :
    (Ref.this :: p.map Ref.module).getLast? = some (before p) := by
  rw [List.getLast?_cons, List.getLast?_map]
  rfl

omit [DecidableEq M] in
theorem head?_after (q : List M) : (q.map Ref.module ++ [Ref.this]).head? = some (after q) := by
  cases q <;> rfl

omit [DecidableEq M] in
theorem before_ne {p : List M} {m : M} (absent : m ∉ p) : before p ≠ .module m := by
  unfold before
  cases last : p.getLast? with
  | none => exact nofun
  | some x =>
    intro same
    exact absent (Ref.module.inj same ▸ List.mem_of_getLast? last)

omit [DecidableEq M] in
theorem after_ne {q : List M} {m : M} (absent : m ∉ q) : after q ≠ .module m := by
  unfold after
  cases first : q.head? with
  | none => exact nofun
  | some x =>
    intro same
    exact absent (Ref.module.inj same ▸ List.mem_of_head? first)

omit [DecidableEq M] in
/-- The links between two places of the list. -/
theorem History.Inv.neighbours (inv : history.Inv) {p q : List M}
    (split : history.members = p ++ q) :
    history.links.next (before p) = after q ∧ history.links.prev (after q) = before p := by
  have ring := inv.ring
  rw [split, List.map_append] at ring
  exact ring.neighbours (getLast?_before p) (head?_after q)

/-- Linking a new module in keeps the invariant. -/
theorem History.Inv.link (inv : history.Inv) {p q : List M} {m : M} {l : RoModuleList M}
    (split : history.members = p ++ q) (fresh : m ∉ history.members)
    (next : l.next = linkNext history.links.next (before p) (.module m) (after q))
    (prev : l.prev = linkPrev history.links.prev (before p) (.module m) (after q)) :
    History.Inv ⟨l, p ++ m :: q,
      (history.removed ++ history.members).filter (· ∉ p ++ m :: q)⟩ where
  ring := by
    have ring := inv.ring
    have distinct := nodup_ring inv.nodup
    have absent : Ref.module m ∉ Ref.this :: history.members.map Ref.module := by
      simpa using fresh
    rw [split, List.map_append] at ring distinct absent
    simp only [next, prev, List.map_append, List.map_cons]
    exact ring.link distinct absent (getLast?_before p) (head?_after q)
  nodup := by
    have nodup := inv.nodup
    rw [split] at nodup fresh
    exact List.nodup_middle.mpr (List.nodup_cons.mpr ⟨fresh, nodup⟩)
  detached r member := by
    obtain ⟨known, outside⟩ := List.mem_filter.mp member
    have outside : r ∉ p ++ m :: q := of_decide_eq_true outside
    have notMember : r ∉ history.members := by
      rw [split]
      intro inside
      exact outside (List.mem_append.mpr
        ((List.mem_append.mp inside).imp_right (List.mem_cons_of_mem _)))
    have notNew : Ref.module r ≠ Ref.module m := by
      rintro ⟨⟩
      exact outside (by simp)
    obtain ⟨-, nextSelf, prevSelf⟩ :=
      inv.detached r ((List.mem_append.mp known).resolve_right notMember)
    rw [split, List.mem_append, not_or] at notMember
    refine ⟨outside, ?_, ?_⟩
    · rw [next, linkNext_of_ne notNew (before_ne notMember.1).symm, nextSelf]
    · rw [prev, linkPrev_of_ne notNew (after_ne notMember.2).symm, prevSelf]

/-- Unlinking a module keeps the invariant. -/
theorem History.Inv.unlink (inv : history.Inv) {p q : List M} {m : M} {l : RoModuleList M}
    (split : history.members = p ++ m :: q)
    (next : l.next = unlinkNext history.links.next (before p) (.module m) (after q))
    (prev : l.prev = unlinkPrev history.links.prev (before p) (.module m) (after q)) :
    History.Inv ⟨l, p ++ q,
      (history.removed ++ history.members).filter (· ∉ p ++ q)⟩ where
  ring := by
    have ring := inv.ring
    have distinct := nodup_ring inv.nodup
    rw [split, List.map_append, List.map_cons] at ring distinct
    simp only [next, prev, List.map_append]
    exact ring.unlink distinct (getLast?_before p) (head?_after q)
  nodup := by
    have nodup := inv.nodup
    rw [split] at nodup
    exact (List.nodup_cons.mp (List.nodup_middle.mp nodup)).2
  detached r member := by
    obtain ⟨known, outside⟩ := List.mem_filter.mp member
    have outside : r ∉ p ++ q := of_decide_eq_true outside
    refine ⟨outside, ?_⟩
    by_cases same : r = m
    · subst same
      exact ⟨by rw [next, unlinkNext_self], by rw [prev, unlinkPrev_self]⟩
    · have notMember : r ∉ history.members := by
        rw [split, List.mem_append, List.mem_cons, not_or, not_or]
        rw [List.mem_append, not_or] at outside
        exact ⟨outside.1, same, outside.2⟩
      have notRemoved : Ref.module r ≠ Ref.module m := fun equal => same (Ref.module.inj equal)
      obtain ⟨-, nextSelf, prevSelf⟩ :=
        inv.detached r ((List.mem_append.mp known).resolve_right notMember)
      rw [List.mem_append, not_or] at outside
      refine ⟨?_, ?_⟩
      · rw [next, unlinkNext_of_ne notRemoved (before_ne outside.1).symm, nextSelf]
      · rw [prev, unlinkPrev_of_ne notRemoved (after_ne outside.2).symm, prevSelf]

/-- What a null argument does. -/
theorem History.Inv.same (inv : history.Inv) :
    History.Inv ⟨history.links, history.members,
      (history.removed ++ history.members).filter (· ∉ history.members)⟩ where
  ring := inv.ring
  nodup := inv.nodup
  detached m member := by
    obtain ⟨known, outside⟩ := List.mem_filter.mp member
    exact inv.detached m ((List.mem_append.mp known).resolve_right (of_decide_eq_true outside))

theorem History.Inv.pushFront (inv : history.Inv) {m : M} (fresh : m ∉ history.members) :
    History.Inv ⟨history.links.pushFront (some m), m :: history.members,
      (history.removed ++ history.members).filter (· ∉ m :: history.members)⟩ := by
  obtain ⟨next, -⟩ := inv.neighbours (p := []) (q := history.members) rfl
  change history.links.next .this = after history.members at next
  refine inv.link (p := []) (q := history.members) rfl fresh ?_ ?_
  · rw [← next]
    rfl
  · rw [← next]
    simp only [RoModuleList.pushFront, setFront, setNext, setPrev, front]
    rw [Function.update_of_ne (this_ne m)]
    rfl

theorem History.Inv.pushBack (inv : history.Inv) {m : M} (fresh : m ∉ history.members) :
    History.Inv ⟨history.links.pushBack (some m), history.members ++ [m],
      (history.removed ++ history.members).filter (· ∉ history.members ++ [m])⟩ := by
  obtain ⟨-, prev⟩ := inv.neighbours (p := history.members) (q := []) (by simp)
  change history.links.prev .this = before history.members at prev
  refine inv.link (p := history.members) (q := []) (by simp) fresh ?_ ?_
  · rw [← prev]
    simp only [RoModuleList.pushBack, setBack, setNext, setPrev, back]
    rw [Function.update_of_ne (this_ne m)]
    rfl
  · rw [← prev]
    rfl

theorem History.Inv.popFront (inv : history.Inv) :
    History.Inv ⟨history.links.popFront, history.members.tail,
      (history.removed ++ history.members).filter (· ∉ history.members.tail)⟩ := by
  obtain ⟨start, -⟩ := inv.neighbours (p := []) (q := history.members) rfl
  change history.links.next .this = after history.members at start
  cases members : history.members with
  | nil =>
    rw [members] at start
    have unchanged : history.links.popFront = history.links :=
      if_pos (decide_eq_true (show history.links.front = .this from start))
    have same := inv.same
    rw [members] at same
    rw [unchanged]
    exact same
  | cons m q =>
    rw [members] at start
    change history.links.next .this = .module m at start
    obtain ⟨next, -⟩ := inv.neighbours (p := [m]) (q := q) members
    change history.links.next (.module m) = after q at next
    have filled : history.links.empty = false :=
      decide_eq_false fun same => this_ne m (same.symm.trans start)
    have unlinked := inv.unlink (p := []) (m := m) (q := q) (l := history.links.popFront) members
    rw [members] at unlinked
    refine unlinked ?_ ?_
    · simp only [RoModuleList.popFront, filled, setFront, setNext, setPrev, front, start, next]
      rfl
    · simp only [RoModuleList.popFront, filled, setFront, setNext, setPrev, front, start, next,
        Function.update_self]
      rfl

theorem History.Inv.popBack (inv : history.Inv) :
    History.Inv ⟨history.links.popBack, history.members.dropLast,
      (history.removed ++ history.members).filter (· ∉ history.members.dropLast)⟩ := by
  rcases List.eq_nil_or_concat history.members with members | ⟨p, m, members⟩
  · obtain ⟨start, -⟩ := inv.neighbours (p := []) (q := []) members
    change history.links.next .this = .this at start
    have unchanged : history.links.popBack = history.links :=
      if_pos (decide_eq_true (show history.links.front = .this from start))
    have same := inv.same
    rw [members] at same ⊢
    rw [unchanged]
    exact same
  · rw [List.concat_eq_append] at members
    obtain ⟨-, stop⟩ := inv.neighbours (p := p ++ [m]) (q := []) (by rw [members, List.append_nil])
    change history.links.prev .this = before (p ++ [m]) at stop
    rw [show before (p ++ [m]) = .module m by rw [before, List.getLast?_concat]; rfl] at stop
    obtain ⟨-, prev⟩ := inv.neighbours (p := p) (q := [m]) members
    change history.links.prev (.module m) = before p at prev
    have filled : history.links.empty = false := by
      refine decide_eq_false fun same => ?_
      obtain ⟨start, -⟩ := inv.neighbours (p := []) (q := history.members) rfl
      have none : after history.members = .this := start.symm.trans same
      rw [members, after] at none
      cases p <;> exact nomatch none
    have unlinked := inv.unlink (p := p) (m := m) (q := []) (l := history.links.popBack) members
    rw [List.append_nil] at unlinked
    rw [members, List.dropLast_concat, ← members]
    refine unlinked ?_ ?_
    · simp only [RoModuleList.popBack, filled, setBack, setNext, setPrev, back, stop, prev,
        Function.update_self]
      rfl
    · simp only [RoModuleList.popBack, filled, setBack, setNext, setPrev, back, stop, prev]
      rfl

omit [DecidableEq M] in
theorem flatMap_of_not_mem [DecidableEq M] {members : List M} {pos : M} (f : M → List M)
    (absent : pos ∉ members) :
    (members.flatMap fun x => if x = pos then f x else [x]) = members := by
  induction members with
  | nil => rfl
  | cons x rest ih =>
    rw [List.mem_cons, not_or] at absent
    rw [List.flatMap_cons, if_neg (Ne.symm absent.1), ih absent.2]
    rfl

/-- Inserting before a position splits the list there. -/
theorem insertedBefore_split {members : List M} (nodup : members.Nodup) {pos : Ref M} (m : M)
    (present : ∀ p, pos = .module p → p ∈ members) :
    ∃ p q, members = p ++ q ∧ after q = pos ∧ insertedBefore members pos m = p ++ m :: q := by
  cases pos with
  | this => exact ⟨members, [], by simp, rfl, rfl⟩
  | module x =>
    obtain ⟨p, q, rfl⟩ := List.append_of_mem (present x rfl)
    have notBoth := List.nodup_cons.mp (List.nodup_middle.mp nodup)
    rw [List.mem_append, not_or] at notBoth
    refine ⟨p, x :: q, rfl, rfl, ?_⟩
    rw [insertedBefore, List.flatMap_append, List.flatMap_cons, if_pos rfl,
      flatMap_of_not_mem (fun y => [m, y]) notBoth.1.1,
      flatMap_of_not_mem (fun y => [m, y]) notBoth.1.2]
    rfl

/-- Inserting after a position splits the list there. -/
theorem insertedAfter_split {members : List M} (nodup : members.Nodup) {pos : Ref M} (m : M)
    (present : ∀ p, pos = .module p → p ∈ members) :
    ∃ p q, members = p ++ q ∧ before p = pos ∧ insertedAfter members pos m = p ++ m :: q := by
  cases pos with
  | this => exact ⟨[], members, rfl, rfl, rfl⟩
  | module x =>
    obtain ⟨p, q, rfl⟩ := List.append_of_mem (present x rfl)
    have notBoth := List.nodup_cons.mp (List.nodup_middle.mp nodup)
    rw [List.mem_append, not_or] at notBoth
    refine ⟨p ++ [x], q, by simp, ?_, ?_⟩
    · rw [before, List.getLast?_concat]
      rfl
    · rw [insertedAfter, List.flatMap_append, List.flatMap_cons, if_pos rfl,
        flatMap_of_not_mem (fun y => [y, m]) notBoth.1.1,
        flatMap_of_not_mem (fun y => [y, m]) notBoth.1.2]
      simp

theorem History.Inv.insertBefore (inv : history.Inv) {pos : Ref M} {m : M}
    (fresh : m ∉ history.members) (present : ∀ p, pos = .module p → p ∈ history.members) :
    History.Inv ⟨history.links.insertBefore (some pos) (some m),
      insertedBefore history.members pos m,
      (history.removed ++ history.members).filter (· ∉ insertedBefore history.members pos m)⟩ := by
  obtain ⟨p, q, split, place, inserted⟩ := insertedBefore_split inv.nodup m present
  obtain ⟨-, prev⟩ := inv.neighbours split
  obtain ⟨start, first⟩ := inv.neighbours (p := []) (q := history.members) rfl
  change history.links.next .this = after history.members at start
  rw [place] at prev
  have other : pos ≠ .module m := place ▸ after_ne fun member =>
    fresh (split ▸ List.mem_append_right _ member)
  -- the front is already the new module when it is inserted before the first one
  have moved : pos ≠ linkNext history.links.next (before p) (.module m) pos .this := by
    rcases eq_or_ne Ref.this (before p) with atStart | inside
    · rw [← atStart, linkNext, Function.update_self]
      exact other
    · rw [linkNext_of_ne (this_ne m) inside, start]
      rintro rfl
      exact inside (first.symm.trans prev)
  have result : history.links.insertBefore (some pos) (some m) =
      ⟨linkNext history.links.next (before p) (.module m) pos,
        linkPrev history.links.prev (before p) (.module m) pos⟩ := by
    simp only [RoModuleList.insertBefore, setNext, setPrev, prev, Function.update_of_ne other]
    exact if_neg moved
  rw [inserted, result]
  exact inv.link split fresh (by rw [place]) (by rw [place])

theorem History.Inv.insertAfter (inv : history.Inv) {pos : Ref M} {m : M}
    (fresh : m ∉ history.members) (present : ∀ p, pos = .module p → p ∈ history.members) :
    History.Inv ⟨history.links.insertAfter (some pos) (some m),
      insertedAfter history.members pos m,
      (history.removed ++ history.members).filter (· ∉ insertedAfter history.members pos m)⟩ := by
  obtain ⟨p, q, split, place, inserted⟩ := insertedAfter_split inv.nodup m present
  obtain ⟨next, -⟩ := inv.neighbours split
  obtain ⟨last, stop⟩ := inv.neighbours (p := history.members) (q := []) (by rw [List.append_nil])
  change history.links.prev .this = before history.members at stop
  rw [place] at next
  have other : pos ≠ .module m := place ▸ before_ne fun member =>
    fresh (split ▸ List.mem_append_left _ member)
  have moved : pos ≠ linkPrev history.links.prev pos (.module m) (after q) .this := by
    rcases eq_or_ne Ref.this (after q) with atEnd | inside
    · rw [← atEnd, linkPrev, Function.update_self]
      exact other
    · rw [linkPrev_of_ne (this_ne m) inside, stop]
      rintro rfl
      exact inside (last.symm.trans next)
  have result : history.links.insertAfter (some pos) (some m) =
      ⟨linkNext history.links.next pos (.module m) (after q),
        linkPrev history.links.prev pos (.module m) (after q)⟩ := by
    simp only [RoModuleList.insertAfter, setNext, setPrev, next, Function.update_of_ne other]
    exact if_neg moved
  rw [inserted, result]
  exact inv.link split fresh (by rw [place]) (by rw [place])

/-- Choosing between the list and what is the list anyway. -/
theorem ite_this (ref : Ref M) : (if ref = .this then .this else ref) = ref := by
  split_ifs with same
  · exact same.symm
  · rfl

/-- Removing a module that has been removed before. -/
theorem History.Inv.remove_detached (inv : history.Inv) {m : M} (member : m ∈ history.removed) :
    history.links.remove (some (.module m)) = history.links := by
  obtain ⟨absent, next, prev⟩ := inv.detached m member
  obtain ⟨start, -⟩ := inv.neighbours (p := []) (q := history.members) rfl
  obtain ⟨-, stop⟩ := inv.neighbours (p := history.members) (q := []) (by rw [List.append_nil])
  have notFront : Ref.module m ≠ history.links.front := by
    rw [show history.links.front = after history.members from start]
    exact (after_ne absent).symm
  have notBack : Ref.module m ≠ history.links.back := by
    rw [show history.links.back = before history.members from stop]
    exact (before_ne absent).symm
  simp only [RoModuleList.remove, if_neg notFront, if_neg notBack, setNext, setPrev, next, prev]
  have nextKept := Function.update_eq_self (Ref.module m) history.links.next
  have prevKept := Function.update_eq_self (Ref.module m) history.links.prev
  rw [next] at nextKept
  rw [prev] at prevKept
  simp only [nextKept, prevKept, next]

/-- Storing a value elsewhere keeps a link that has it already. -/
theorem update_of_eq {links : Ref M → Ref M} {x a b : Ref M} (link : links x = b) :
    Function.update links a b x = b := by
  rcases eq_or_ne x a with rfl | apart
  · exact Function.update_self ..
  · rw [Function.update_of_ne apart, link]

/-- Removing a module between two neighbours; setting `front` or `back` first is setting a link of
the list itself that is set again. -/
theorem remove_links (links : RoModuleList M) {m : M} {a b : Ref M}
    (next : links.next (.module m) = b) (prev : links.prev (.module m) = a)
    (first : .module m = links.front → a = .this) (last : .module m = links.back → b = .this) :
    links.remove (some (.module m)) =
      ⟨unlinkNext links.next a (.module m) b, unlinkPrev links.prev a (.module m) b⟩ := by
  have other : Ref.module m ≠ Ref.this := (this_ne m).symm
  by_cases atFront : Ref.module m = links.front <;> by_cases atBack : Ref.module m = links.back
  · have atBack' : Ref.module m = (links.setFront b).back := atBack
    have kept : (links.setFront b).prev (.module m) = a := prev
    simp only [RoModuleList.remove, if_pos atFront, next, ite_this, if_pos atBack', kept]
    obtain rfl := first atFront
    obtain rfl := last atBack
    simp only [setFront, setBack, setNext, setPrev, Function.update_of_ne other, next, prev,
      Function.update_idem]
    rfl
  · obtain rfl := first atFront
    have atBack : ¬ Ref.module m = (links.setFront b).back := atBack
    simp only [RoModuleList.remove, if_pos atFront, next, ite_this, if_neg atBack]
    simp only [setFront, setNext, setPrev, Function.update_of_ne other, next, prev,
      Function.update_idem]
    rfl
  · obtain rfl := last atBack
    simp only [RoModuleList.remove, if_neg atFront, if_pos atBack, prev, ite_this]
    simp only [setBack, setNext, setPrev, Function.update_of_ne other, next, prev,
      update_of_eq next, Function.update_idem]
    rfl
  · simp only [RoModuleList.remove, if_neg atFront, if_neg atBack, setNext, setPrev, next, prev,
      update_of_eq next]
    rfl

theorem History.Inv.remove (inv : history.Inv) {m : M}
    (known : m ∈ history.members ∨ m ∈ history.removed) :
    History.Inv ⟨history.links.remove (some (.module m)), history.members.erase m,
      (history.removed ++ history.members).filter (· ∉ history.members.erase m)⟩ := by
  by_cases member : m ∈ history.members
  · obtain ⟨p, q, split⟩ := List.append_of_mem member
    have nodup := inv.nodup
    rw [split] at nodup
    have notBoth := List.nodup_cons.mp (List.nodup_middle.mp nodup)
    rw [List.mem_append, not_or] at notBoth
    have erased : history.members.erase m = p ++ q := by
      rw [split, List.erase_append_right _ notBoth.1.1, List.erase_cons_head]
    have left : before (p ++ [m]) = .module m := by
      rw [before, List.getLast?_concat]
      rfl
    obtain ⟨-, prev⟩ := inv.neighbours (p := p) (q := m :: q) split
    obtain ⟨next, -⟩ := inv.neighbours (p := p ++ [m]) (q := q) (by rw [split]; simp)
    change history.links.prev (.module m) = before p at prev
    rw [left] at next
    have result := remove_links history.links next prev ?_ ?_
    rotate_left
    · intro atFront
      obtain ⟨start, first⟩ := inv.neighbours (p := []) (q := history.members) rfl
      rw [← start, show history.links.next (before []) = .module m from atFront.symm, prev] at first
      exact first
    · intro atBack
      obtain ⟨last, stop⟩ := inv.neighbours (p := history.members) (q := [])
        (by rw [List.append_nil])
      rw [← stop, show history.links.prev (after []) = .module m from atBack.symm, next] at last
      exact last
    rw [erased, result]
    exact inv.unlink split rfl rfl
  · have removed := known.resolve_left member
    rw [inv.remove_detached removed, List.erase_of_not_mem member]
    exact inv.same

/-- Every admissible operation keeps the invariant. -/
theorem History.Inv.step (inv : history.Inv) {operation : Operation M}
    (admissible : history.Admissible operation) {target : History M}
    (stepped : history.step operation = some target) : target.Inv := by
  obtain rfl := Option.some.inj stepped
  match operation, admissible with
  | .pushFront none, _ | .pushBack none, _ | .remove none, _ | .remove (some .this), _
  | .insertBefore none _, _ | .insertAfter none _, _
  | .insertBefore (some _) none, _ | .insertAfter (some _) none, _ => exact inv.same
  | .pushFront (some m), fresh => exact inv.pushFront fresh
  | .pushBack (some m), fresh => exact inv.pushBack fresh
  | .popFront, _ => exact inv.popFront
  | .popBack, _ => exact inv.popBack
  | .insertBefore (some pos) (some m), ⟨fresh, present⟩ => exact inv.insertBefore fresh present
  | .insertAfter (some pos) (some m), ⟨fresh, present⟩ => exact inv.insertAfter fresh present
  | .remove (some (.module m)), known => exact inv.remove known

/-- After any admissible operations the list is a well-formed circular list of what they describe. -/
theorem wellFormed_of_run (memory : RoModuleList M) (operations : List (Operation M))
    (admissible : RunMeets History.step History.Admissible (History.start memory) operations)
    {target : History M} (ran : run History.step (History.start memory) operations = some target) :
    target.WellFormed :=
  (run_invariant (fun _ _ _ inv admissible stepped => inv.step admissible stepped)
    (History.Inv.start memory) admissible ran).wellFormed

/-- Two modules pushed at both ends, and the first one popped. -/
theorem wellFormed_popped :
    History.WellFormed {
      links := (((construct ⟨id, id⟩).pushFront (some 1)).pushBack (some 2)).popFront
      members := [2]
      removed := [1] } := by
  refine wellFormed_of_run ⟨id, id⟩ [.pushFront (some 1), .pushBack (some 2), .popFront] ?_ rfl
  refine ⟨List.not_mem_nil, fun first stepped => ?_⟩
  obtain rfl := Option.some.inj stepped
  refine ⟨?_, fun second stepped => ⟨trivial, fun _ _ => trivial⟩⟩
  change 2 ∉ [1]
  decide

end Hakkun.Rtld
