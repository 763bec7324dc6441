import Hakkun.Machine.A64.Step

/-! # Runs of a block of words

A core has, beside the state of `A64.State`, the rest of what its instructions read and write. What
the instructions do that neither read the program counter nor branch is a parameter of the machine.
A block is a list of words that are executed one after the other, as far as the first branch that
is taken; they need not be in memory.
-/

namespace Hakkun.A64

/-- A state, and the registers that are not in it. -/
@[ext] structure Core (ρ : Type) extends State where
  rest : ρ

/-- The addresses of words that follow each other. -/
def InCode (address : BitVec 64) (count : ℕ) (a : BitVec 64) : Prop :=
  ∃ i < count, a = address + BitVec.ofNat 64 (4 * i)

/-- What the words do that neither read nor set the program counter, which is 0 for them. They do
not write to the words at an address. -/
structure Effect (ρ : Type) (address : BitVec 64) (count : ℕ) where
  run : Word → Core ρ → Option (Core ρ)
  keeps : ∀ word c d, run word c = some d → ∀ a, InCode address count a → d.memory a = c.memory a

/-- No such word has an effect. -/
instance (ρ : Type) (address : BitVec 64) (count : ℕ) : Inhabited (Effect ρ address count) :=
  ⟨⟨fun _ _ => none, fun _ _ _ ran => nomatch ran⟩⟩

/-- A condition of a branch, of the flags N, Z, C and V. -/
def holds (cond flags : BitVec 4) : Bool :=
  let n := flags.getLsbD 3
  let z := flags.getLsbD 2
  let c := flags.getLsbD 1
  let v := flags.getLsbD 0
  let base :=
    match cond.extractLsb' 1 3 with
    | 0 => z
    | 1 => c
    | 2 => n
    | 3 => v
    | 4 => c && !z
    | 5 => n == v
    | 6 => n == v && !z
    | _ => true
  if cond.getLsbD 0 && cond != 0b1111 then !base else base

/-- The conditions come in pairs, but for the two that always hold. -/
theorem holds_xor_one : ∀ cond flags : BitVec 4, cond.toNat < 14 →
    holds (cond ^^^ 1) flags = !holds cond flags := by decide

/-- A register of a comparison with zero. -/
def compared (s : State) (sf : Bool) (rt : RegField) : BitVec 64 :=
  if sf then s.registers.read rt else ((s.registers.read rt).setWidth 32).setWidth 64

/-- The state after a branch that is taken. -/
def taken (s : State) : Instr → Option State
  | .bcond cond imm => if holds cond s.flags then some (s.jump (s.pc + wordOffset imm)) else none
  | .compareBranch sf nonzero imm rt =>
    if (compared s sf rt != 0) = nonzero then some (s.jump (s.pc + wordOffset imm)) else none
  | .testBranch nonzero bit imm rt =>
    if (s.registers.read rt).getLsbD bit.toNat = nonzero then
      some (s.jump (s.pc + wordOffset imm))
    else none
  | .b imm => execute s (.b imm)
  | .bl imm => execute s (.bl imm)
  | .br rn => execute s (.br rn)
  | .blr rn => execute s (.blr rn)
  | .ret rn => some (s.jump (s.registers.read rn))
  | _ => none

/-- The branches that leave an address to return to. -/
def links : Instr → Bool
  | .bl _ | .blr _ => true
  | _ => false

/-- The branches that may not be taken. -/
def conditional : Instr → Bool
  | .bcond .. | .compareBranch .. | .testBranch .. => true
  | _ => false

/-- Loads that are relative to the program counter. -/
def isLiteral : Instr → Bool
  | .literal .. => true
  | _ => false

section

variable {ρ : Type} {address : BitVec 64} {count : ℕ} (effect : Effect ρ address count)

/-- The core after a word that does not branch. The loads of a literal that are not of `execute`
have no result. -/
def goesOn (c : Core ρ) (word : Word) : Option (Core ρ) :=
  let i := Instr.decode word
  if conditional i then some { c with pc := c.pc + 4 }
  else
    match execute c.toState i with
    | some s => some { c with toState := s }
    | none =>
      if isLiteral i then none
      else (effect.run word { c with pc := 0 }).map fun d => { d with pc := c.pc + 4 }

namespace Core

def step (c : Core ρ) : Option (Core ρ) :=
  match taken c.toState (Instr.decode (c.memory c.pc)) with
  | some s => some { c with toState := s }
  | none => goesOn effect c (c.memory c.pc)

def steps : ℕ → Core ρ → Option (Core ρ)
  | 0, c => some c
  | n + 1, c => (c.step effect).bind (steps n)

/-- One core is reached from another. -/
def Reaches (c d : Core ρ) : Prop := ∃ n, c.steps effect n = some d

end Core

/-- Where a run of a block ends: after its last word, at the target of a branch, or at the target of
a branch that leaves an address to return to, with the number of words that are left. -/
inductive Exit (ρ : Type) where
  | past (c : Core ρ)
  | left (c : Core ρ)
  | called (more : ℕ) (c : Core ρ)

def blockRun : List Word → Core ρ → Option (Exit ρ)
  | [], c => some (.past c)
  | word :: words, c =>
    match taken c.toState (Instr.decode word) with
    | some s =>
      if links (Instr.decode word) then some (.called words.length { c with toState := s })
      else some (.left { c with toState := s })
    | none => (goesOn effect c word).bind (blockRun words)

/-! ## Steps of a core -/

namespace Core

variable {effect} {c d e : Core ρ}

theorem Reaches.refl (c : Core ρ) : c.Reaches effect c := ⟨0, rfl⟩

theorem Reaches.head (stepped : c.step effect = some d) (rest : d.Reaches effect e) :
    c.Reaches effect e := by
  obtain ⟨n, ran⟩ := rest
  refine ⟨n + 1, ?_⟩
  rw [steps, stepped, Option.bind_some, ran]

theorem Reaches.trans (first : c.Reaches effect d) (second : d.Reaches effect e) :
    c.Reaches effect e := by
  obtain ⟨n, ran⟩ := first
  induction n generalizing c with
  | zero =>
    obtain rfl := Option.some.inj ran
    exact second
  | succ n ih =>
    obtain ⟨middle, stepped, ran⟩ := Option.bind_eq_some_iff.mp ran
    exact .head stepped (ih ran)

/-- A step of the state alone is a step of the core. -/
theorem step_of_execute {s : State}
    (executed : execute c.toState (Instr.decode (c.memory c.pc)) = some s) :
    c.step effect = some { c with toState := s } := by
  rw [step, goesOn]
  generalize Instr.decode (c.memory c.pc) = i at *
  cases i with
  | b | bl | br | blr => simp only [taken, executed]
  | bcond | compareBranch | testBranch | ret => cases executed
  | _ => simp only [taken, conditional, executed, Bool.false_eq_true, if_false]

/-- A step from a word that is loaded at the program counter. -/
theorem step_of_taken {word : Word} {s : State} (loaded : Loaded c.memory c.pc [word])
    (took : taken c.toState (Instr.decode word) = some s) :
    c.step effect = some { c with toState := s } := by
  have here := loaded 0 word rfl
  rw [Nat.mul_zero, BitVec.add_zero] at here
  rw [step, here, took]

theorem step_of_untaken {word : Word} (loaded : Loaded c.memory c.pc [word])
    (untaken : taken c.toState (Instr.decode word) = none)
    (gone : goesOn effect c word = some d) : c.step effect = some d := by
  have here := loaded 0 word rfl
  rw [Nat.mul_zero, BitVec.add_zero] at here
  rw [step, here, untaken, gone]

theorem reaches_of_steps {n : ℕ} {s : State} (ran : A64.steps n c.toState = some s) :
    c.Reaches effect { c with toState := s } := by
  induction n generalizing c with
  | zero =>
    obtain rfl := Option.some.inj ran
    exact .refl c
  | succ n ih =>
    obtain ⟨middle, stepped, ran⟩ := Option.bind_eq_some_iff.mp ran
    exact .head (step_of_execute stepped) (ih ran)

end Core

/-! ## Words that go on -/

theorem execute_memory {s t : State} {i : Instr} (executed : execute s i = some t) :
    t.memory = s.memory := by
  unfold execute at executed
  split at executed
  case h_3 =>
    split at executed
    · cases executed
      rfl
    · obtain ⟨value, -, rfl⟩ := Option.map_eq_some_iff.mp executed
      rfl
  case h_4 rd =>
    cases executed
    unfold State.setSp
    split <;> rfl
  case h_10 => cases executed
  all_goals
    cases executed
    rfl

theorem execute_pc {s t : State} {i : Instr} (untaken : taken s i = none)
    (executed : execute s i = some t) : t.pc = s.pc + 4 := by
  unfold execute at executed
  split at executed
  case h_3 =>
    split at executed
    · cases executed
      rfl
    · obtain ⟨value, -, rfl⟩ := Option.map_eq_some_iff.mp executed
      rfl
  case h_4 rd =>
    cases executed
    unfold State.setSp
    split <;> rfl
  case h_6 | h_7 | h_8 | h_9 => cases untaken
  case h_10 => cases executed
  all_goals
    cases executed
    rfl

/-- The core after a word, which is at the next one. -/
theorem goesOn_eq_some {c d : Core ρ} {word : Word} (gone : goesOn effect c word = some d) :
    d = { c with pc := c.pc + 4 } ∨
      (∃ s, execute c.toState (Instr.decode word) = some s ∧ d = { c with toState := s }) ∨
      ∃ e, effect.run word { c with pc := 0 } = some e ∧ d = { e with pc := c.pc + 4 } := by
  rw [goesOn] at gone
  split at gone
  · exact .inl (Option.some.inj gone).symm
  · split at gone
    · rename_i s executed
      exact .inr (.inl ⟨s, executed, (Option.some.inj gone).symm⟩)
    · split at gone
      · cases gone
      · obtain ⟨e, ran, rfl⟩ := Option.map_eq_some_iff.mp gone
        exact .inr (.inr ⟨e, ran, rfl⟩)

theorem goesOn_pc {c d : Core ρ} {word : Word}
    (untaken : taken c.toState (Instr.decode word) = none)
    (gone : goesOn effect c word = some d) : d.pc = c.pc + 4 := by
  obtain rfl | ⟨s, executed, rfl⟩ | ⟨e, -, rfl⟩ := goesOn_eq_some effect gone
  · rfl
  · exact execute_pc untaken executed
  · rfl

theorem goesOn_memory {c d : Core ρ} {word : Word} (gone : goesOn effect c word = some d)
    {a : BitVec 64} (inside : InCode address count a) : d.memory a = c.memory a := by
  obtain rfl | ⟨s, executed, rfl⟩ | ⟨e, ran, rfl⟩ := goesOn_eq_some effect gone
  · rfl
  · exact congrFun (execute_memory executed) a
  · exact effect.keeps word _ e ran a inside

/-- Words stay loaded behind a word of the block. -/
theorem loaded_of_goesOn {c d : Core ρ} {word : Word} {words : List Word}
    (gone : goesOn effect c word = some d) (fits : words.length ≤ count)
    (loaded : Loaded c.memory address words) : Loaded d.memory address words := by
  intro i word at_
  have inside : i < count := Nat.lt_of_lt_of_le (List.getElem?_eq_some_iff.mp at_).1 fits
  rw [goesOn_memory effect gone ⟨i, inside, rfl⟩]
  exact loaded i word at_

/-! ## Words that do not depend on their address -/

/-- The instructions that do not read the program counter, but for a link. -/
def movable : Instr → Bool
  | .adr .. | .adrp .. | .b _ | .bl _ | .bcond .. | .compareBranch .. | .testBranch ..
  | .literal .. => false
  | _ => true

theorem execute_at {s : State} {i : Instr} (moves : movable i = true) (untaken : taken s i = none)
    (pc : BitVec 64) :
    execute { s with pc := pc } i = (execute s i).map fun t => { t with pc := pc + 4 } := by
  cases i with
  | br | blr => cases untaken
  | moveWide sf opc hw imm rd =>
    cases sf with
    | false => rfl
    | true =>
      rw [execute, execute]
      split
      · rfl
      · cases moveWideValue opc hw imm <;> rfl
  | addSubImm sf sub sh imm rn rd =>
    cases sf <;> cases sub <;> try rfl
    rw [execute, execute, Option.map_some, State.setSp, State.setSp]
    split <;> rfl
  | adr | adrp | b | bl | literal => cases moves
  | _ => rfl

theorem taken_at {s : State} {i : Instr} (moves : movable i = true) (plain : links i = false)
    (pc : BitVec 64) : taken { s with pc := pc } i = taken s i := by
  cases i with
  | b | bl | bcond | compareBranch | testBranch => cases moves
  | blr => cases plain
  | _ => rfl

theorem goesOn_at {c : Core ρ} {word : Word} (moves : movable (Instr.decode word) = true)
    (untaken : taken c.toState (Instr.decode word) = none) (pc : BitVec 64) :
    goesOn effect { c with pc := pc } word =
      (goesOn effect c word).map fun d => { d with pc := pc + 4 } := by
  have executed := execute_at moves untaken pc
  rw [goesOn, goesOn]
  generalize Instr.decode word = i at *
  have straight : conditional i = false := by
    cases i with
    | bcond | compareBranch | testBranch => cases moves
    | _ => rfl
  have absolute : isLiteral i = false := by
    cases i with
    | literal => cases moves
    | _ => rfl
  dsimp only
  rw [straight, absolute, executed]
  cases execute c.toState i with
  | some t => rfl
  | none =>
    cases effect.run word { c with pc := 0 } <;> rfl

end

end Hakkun.A64
