import Hakkun.Soundness.Candidates

/-! # Weak references

A lookup that may not abort is for symbols that need not exist. It gets no further than the search
for the name: whatever is found is applied with the abort set. Only names without an entry, symbols
that resolve, and data blocks outside their version boundary give what they should.
-/

namespace Hakkun.Sail

open Machine.Core Util

variable (gSymbols : List DbEntry) (process : Process)

/-- A lookup that may not abort gives the address of the symbol, and 0 when there is none. -/
def FindsWeakly (symbol : DestSymbol) (caches : Caches) : Prop :=
  ∀ answer, Judges gSymbols process (.hash symbol.destHash) answer → ∃ caches',
    Ends (fun fuel => lookupSymbolFromDb gSymbols process fuel symbol false caches)
      (.ok (answer.getD 0, caches'))

/-- The entry is a data block whose version boundary leaves it out. -/
def Unapplied (symbol : DestSymbol) : Prop :=
  ∃ (idx : ℕ) (entry : Entry), lookupSymbolByHash gSymbols symbol.destHash = some (idx : ℤ) ∧
    gSymbols[idx]? = some (.single entry) ∧
    match entry.data with
    | .dataBlock data dataMask moduleIdx versionBoundaryType versionBoundary sectionLimit
        offsetToFoundBlock =>
      (∃ module, process.loaded moduleIdx.toNat = some module ∧
        ¬ module.searches versionBoundaryType versionBoundary) ∧
      process.direct (.dataBlock data dataMask moduleIdx versionBoundaryType versionBoundary
        sectionLimit offsetToFoundBlock) = none
    | _ => False

/-- In every run of lookups under a condition, the ones that may not abort do not. -/
def AllFindWeakly (condition : DestSymbol → Bool → Prop) : Prop :=
  ∀ caches, Reached gSymbols process condition caches →
    ∀ symbol, condition symbol false → FindsWeakly gSymbols process symbol caches

/-- The lookups that resolve as they should, or have a data block that is left out. -/
def Excused (symbol : DestSymbol) (abort : Bool) : Prop :=
  Careful gSymbols process symbol abort ∨ Unapplied gSymbols process symbol

variable {gSymbols process} {symbol : DestSymbol} {abort : Bool} {caches caches' : Caches}

/-- A data block outside its boundary leaves the 0 that the result starts with, abort or not. -/
theorem Unapplied.lookup (unapplied : Unapplied gSymbols process symbol)
    (sound : Sound gSymbols process caches) :
    Judges gSymbols process (.hash symbol.destHash) none ∧
      ∃ caches', Sound gSymbols process caches' ∧
      Ends (fun fuel => lookupSymbolFromDb gSymbols process fuel symbol abort caches)
        (.ok (0, caches')) := by
  obtain ⟨idx, entry, search, here, left⟩ := unapplied
  cases given : entry.data with
  | dataBlock data dataMask moduleIdx versionBoundaryType versionBoundary sectionLimit offset =>
    simp only [given] at left
    obtain ⟨⟨module, loaded, stays⟩, fails⟩ := left
    have judged : Judges gSymbols process (.entry entry.data) none := by
      rw [given, ← fails]
      exact .direct rfl
    have names : subject? gSymbols ⟨idx, none⟩ = some (.entry entry.data) := by rw [subject?, here]
    have kept : applyDataBlockSymbol process true data dataMask moduleIdx versionBoundaryType
        versionBoundary sectionLimit offset (some 0) symbol = .ok (some 0) :=
      applyDataBlockSymbol_of_stays loaded stays _
    have applied : Answers gSymbols process (fun fuel => applyEntry process
        (sourceOf gSymbols process fuel) true entry ⟨idx, none⟩ (some 0) symbol caches) none := by
      refine .withCache sound names judged ⟨caches, sound, .of_forall fun fuel => ?_⟩
      rw [given]
      dsimp only
      rw [kept]
      rfl
    obtain ⟨caches', sound', ends⟩ := applied
    refine ⟨.single search here judged, caches', sound', ?_⟩
    have applies : Ends (fun fuel => apply gSymbols process fuel true idx (some 0) symbol caches)
        (.ok (some 0, caches')) :=
      .of_succ (.congr (fun fuel => by rw [apply, here]; rfl) ends)
    exact .congr (lookupSymbolFromDb_found search) (applies.bind (.of_forall fun _ => rfl))
  | _ =>
    simp only [given] at left

theorem Excused.step (excused : Excused gSymbols process symbol abort)
    (sound : Sound gSymbols process caches) {address : Ptr}
    (ends : Ends (fun fuel => lookupSymbolFromDb gSymbols process fuel symbol abort caches)
      (.ok (address, caches'))) : Sound gSymbols process caches' := by
  cases excused with
  | inl careful => exact careful.step sound ends
  | inr unapplied =>
    obtain ⟨-, caches'', sound', ends'⟩ := unapplied.lookup sound
    obtain ⟨-, rfl⟩ := Prod.mk.inj (Except.ok.inj (ends.unique ends'))
    exact sound'

theorem Excused.findsWeakly (excused : Excused gSymbols process symbol false)
    (sound : Sound gSymbols process caches) : FindsWeakly gSymbols process symbol caches := by
  intro answer judged
  rcases excused with careful | unapplied
  · cases careful with
    | missing absent =>
      obtain rfl := judged.unique (.missing absent)
      refine ⟨caches, .of_forall fun fuel => ?_⟩
      rw [lookupSymbolFromDb, absent]
      rfl
    | resolves clean =>
      obtain rfl := judged.unique clean.judges
      obtain ⟨caches', -, ends⟩ := clean.lookup sound
      exact ⟨caches', ends⟩
  · obtain ⟨none_, caches', -, ends⟩ := unapplied.lookup sound
    obtain rfl := judged.unique none_
    exact ⟨caches', ends⟩

/-- Runs of excused lookups give every weak reference its address or 0. -/
theorem allFindWeakly_excused (unanswered : Unanswered gSymbols) :
    AllFindWeakly gSymbols process (Excused gSymbols process) := by
  intro caches reached symbol excused
  apply excused.findsWeakly
  clear excused
  induction reached with
  | initial => exact sound_initialCaches unanswered
  | lookup _ excused ends ih => exact excused.step ih ends

/-- A data block for versions from 1 on. -/
def newerDb : List DbEntry := [.single ⟨5, 0, .dataBlock [0xaa] [0xff] 0 2 1 0 0⟩]

/-- In version 0 a weak reference to it is 0. -/
theorem findsWeakly_newer : Excused newerDb fallbackProcess (.murmur 5) false ∧
    FindsWeakly newerDb fallbackProcess (.murmur 5) (initialCaches newerDb) := by
  have excused : Excused newerDb fallbackProcess (.murmur 5) false :=
    .inr ⟨0, _, by decide, rfl, ⟨_, rfl, by decide⟩, rfl⟩
  exact ⟨excused, allFindWeakly_excused (by decide) _ .initial _ excused⟩

/-- A symbol that is looked up among the exported ones. -/
def exportedDb : List DbEntry := [.single ⟨5, 0, .dynamic 0 0 0⟩]

/-- A process without that export. -/
def bareProcess : Process where
  gModules := []
  search := fun _ _ _ => 0
  lookupSymbol := fun _ _ _ => 0
  read32 := fun _ => none
  read64 := fun _ => none
  readable := fun _ => false

/-- A weak reference to an export that is missing aborts. -/
theorem not_allFindWeakly : ¬ ∀ gSymbols process, Unanswered gSymbols →
    AllFindWeakly gSymbols process fun _ _ => True := by
  intro holds
  have found : lookupSymbolByHash exportedDb 5 = some ((0 : ℕ) : ℤ) := by decide
  have judged : Judges exportedDb bareProcess (.hash 5) none := .single found rfl (.direct rfl)
  obtain ⟨caches', right⟩ := holds exportedDb bareProcess (by decide) _ .initial (.murmur 5) trivial
    none judged
  have wrong : Ends (fun fuel => lookupSymbolFromDb exportedDb bareProcess fuel (.murmur 5) false
      (initialCaches exportedDb)) (.error ((DestSymbol.murmur 5).unresolved "Dynamic")) :=
    .of_succ (.of_forall fun fuel => rfl)
  cases right.unique wrong

end Hakkun.Sail
