-- Any number of automata under changes of any kind. A change of one automaton may take others as
-- its source. One step keeps all tables sound, so any number of steps does, and whatever is read
-- after one of them is there.
import WeightedAutomata.Proofs.Expansion.Units
import WeightedAutomata.Proofs.Pattern.Acceptance
import WeightedAutomata.Proofs.Reading
import WeightedAutomata.Proofs.Selection

namespace WeightedAutomata

/-! ## Changes -/

/-- Some automata, by number. -/
abbrev Workspace (n : Nat) := Fin n → Automaton

/-- A change of an automaton. Where it has a source, that is one of the automata as it stood
before the change, and may be the one that is changed. -/
inductive Change (n : Nat) where
  | reset
  | clone (source : Fin n)
  | addUnit (name : String)
  | addStates (unit count : Nat) (final : Bool)
  | addTransition (unit : Nat) (t : Transition)
  | setFinal (unit state : Nat) (final : Bool)
  | setSymbols (side : Automaton.Side) (table : SymbolTable)
  | append (source : Fin n)
  | appendRange (source : Fin n) (first count : Nat)
  | copyUnits (source : Fin n) (selection : Automaton.Selection)
  | expand (source : Fin n) (unit : Option Nat)
  | compile (pattern : String)

/-- What a change makes of an automaton. -/
def Change.apply {n : Nat} (w : Workspace n) (a : Automaton) : Change n → Except Fault Automaton
  | .reset => .ok a.reset
  | .clone source => .ok (w source)
  | .addUnit name => .ok (a.addUnit name).2
  | .addStates unit count final => (a.addStates unit count final).tables
  | .addTransition unit t => (a.addTransition unit t).tables
  | .setFinal unit state final => (a.setFinal unit state final).tables
  | .setSymbols side table => .ok (a.setSymbols side table)
  | .append source => (a.append (w source)).tables
  | .appendRange source first count => (a.appendRange (w source) first count).tables
  | .copyUnits source selection => (a.copyUnits (w source) selection).tables
  | .expand source unit => (a.becomeExpansion (w source) unit).tables
  | .compile pattern => (a.compilePattern pattern).tables

namespace Automaton

variable {a source : Automaton}

theorem sound_becomeExpansion (hsound : a.violation? = none) (hsource : source.violation? = none)
    (unit : Option Nat) : (a.becomeExpansion source unit).Sound := by
  unfold becomeExpansion
  rcases exists_expand hsource unit with ⟨d, hd, hsound'⟩ | ⟨u, -, -, hrefused⟩
  · rw [hd]
    exact hsound'
  · rw [hrefused]
    exact hsound

theorem sound_compilePattern (a : Automaton) (pattern : String) :
    (a.compilePattern pattern).Sound := by
  unfold compilePattern
  split
  · rename_i acceptor hacceptor
    obtain ⟨e, name, -, hsound, -⟩ := exists_expr_of_ofPattern hacceptor
    exact hsound
  · exact violation?_empty .acceptor

end Automaton

/-! ## Steps -/

section steps

variable {n : Nat} {w : Workspace n}

open Automaton

/-- A change does not break sound automata, and leaves sound tables. -/
theorem Change.exists_apply (hw : ∀ r, (w r).violation? = none) {a : Automaton}
    (ha : a.violation? = none) (change : Change n) :
    ∃ after, change.apply w a = .ok after ∧ after.violation? = none := by
  cases change with
  | reset => exact ⟨_, rfl, violation?_empty a.schema⟩
  | clone source => exact ⟨_, rfl, hw source⟩
  | addUnit name => exact ⟨_, rfl, violation?_addUnit ha name⟩
  | addStates unit count final => exact (sound_addStates ha unit count final).exists_tables
  | addTransition unit t => exact (sound_addTransition ha unit t).exists_tables
  | setFinal unit state final => exact (sound_setFinal ha unit state final).exists_tables
  | setSymbols side table => exact ⟨_, rfl, violation?_setSymbols ha side table⟩
  | append source => exact (sound_appendRange ha (hw source) 0 _).exists_tables
  | appendRange source first count =>
    exact (sound_appendRange ha (hw source) first count).exists_tables
  | copyUnits source selection => exact (sound_copyUnits ha (hw source) selection).exists_tables
  | expand source unit => exact (sound_becomeExpansion ha (hw source) unit).exists_tables
  | compile pattern => exact (sound_compilePattern a pattern).exists_tables

/-- A change of one of the automata. -/
structure Step (n : Nat) where
  target : Fin n
  change : Change n

namespace Workspace

/-- Carries out one change. -/
def step (w : Workspace n) (s : Step n) : Except Fault (Workspace n) := do
  let after ← s.change.apply w (w s.target)
  return fun r => if r = s.target then after else w r

/-- Carries out changes one after another. -/
def run (w : Workspace n) : List (Step n) → Except Fault (Workspace n)
  | [] => .ok w
  | s :: steps => do
    let after ← w.step s
    after.run steps

/-- All tables are small at the start of some changes and after each of them. -/
def StaysSmall (w : Workspace n) : List (Step n) → Prop
  | [] => ∀ r, (w r).Small
  | s :: steps => (∀ r, (w r).Small) ∧ ∀ after, w.step s = .ok after → StaysSmall after steps

instance decidableStaysSmall : ∀ (w : Workspace n) (steps : List (Step n)),
    Decidable (w.StaysSmall steps)
  | w, [] => inferInstanceAs (Decidable (∀ r, (w r).Small))
  | w, s :: steps =>
    match h : w.step s with
    | .error _ => decidable_of_iff (∀ r, (w r).Small) (by simp [StaysSmall, h])
    | .ok after =>
      have := decidableStaysSmall after steps
      decidable_of_iff ((∀ r, (w r).Small) ∧ after.StaysSmall steps) (by simp [StaysSmall, h])

/-- One step keeps all tables sound. -/
theorem exists_step (hw : ∀ r, (w r).violation? = none) (s : Step n) :
    ∃ after, w.step s = .ok after ∧ ∀ r, (after r).violation? = none := by
  obtain ⟨after, hafter, hsound⟩ := s.change.exists_apply hw (hw s.target)
  unfold step
  rw [hafter]
  refine ⟨_, rfl, ?_⟩
  intro r
  by_cases hr : r = s.target
  · rw [if_pos hr]
    exact hsound
  · rw [if_neg hr]
    exact hw r

/-- Each part of a run from sound tables ends in tables that are sound and small. -/
theorem exists_run (hw : ∀ r, (w r).violation? = none) {steps : List (Step n)}
    (hsmall : w.StaysSmall steps) {taken : List (Step n)} (htaken : taken <+: steps) :
    ∃ after, w.run taken = .ok after ∧ ∀ r, (after r).violation? = none ∧ (after r).Small := by
  induction steps generalizing w taken with
  | nil =>
    rw [List.prefix_nil.1 htaken]
    exact ⟨w, rfl, fun r => ⟨hw r, hsmall r⟩⟩
  | cons s steps ih =>
    cases taken with
    | nil => exact ⟨w, rfl, fun r => ⟨hw r, hsmall.1 r⟩⟩
    | cons s' taken =>
      obtain ⟨rfl, hrest⟩ := List.cons_prefix_cons.1 htaken
      obtain ⟨next, hnext, hsound⟩ := exists_step hw s'
      obtain ⟨after, hafter, hall⟩ := ih hsound (hsmall.2 next hnext) hrest
      refine ⟨after, ?_, hall⟩
      rw [run, hnext]
      exact hafter

/-- Automata that are empty or sound at first are sound after each of any changes, refused or
not, as long as their tables stay small. No change breaks, and nothing that is read breaks. -/
theorem run_keeps_integrity (w : Workspace n)
    (hstart : ∀ r, (∃ schema, w r = .empty schema) ∨ (w r).violation? = none)
    (steps : List (Step n)) (hsmall : w.StaysSmall steps) :
    ∀ taken, taken <+: steps → ∃ after, w.run taken = .ok after ∧
      ∀ r, (after r).violation? = none ∧ (after r).Readable := by
  have hw : ∀ r, (w r).violation? = none := by
    intro r
    rcases hstart r with ⟨schema, hr⟩ | hr
    · rw [hr]
      exact violation?_empty schema
    · exact hr
  intro taken htaken
  obtain ⟨after, hafter, hall⟩ := exists_run hw hsmall htaken
  refine ⟨after, hafter, ?_⟩
  intro r
  obtain ⟨hsound, hr⟩ := hall r
  exact ⟨hsound, readable hsound hr⟩

/-- Two acceptors without units. -/
def blank : Workspace 2 := fun _ => empty .acceptor

/-- The first automaton gets two units, one of them with a transition, and is appended to the
second. A unit that does not exist is refused its state, and one that stands before another gets
one. At last the first is replaced by units of the second. -/
def crossing : List (Step 2) :=
  [⟨0, .addUnit "reads"⟩, ⟨0, .addUnit "waits"⟩, ⟨0, .addStates 0 2 true⟩,
    ⟨0, .addTransition 0 { source := 0, target := 1, input := some .anyChar }⟩, ⟨1, .append 0⟩,
    ⟨1, .addStates 2 1 false⟩, ⟨1, .addStates 0 1 false⟩, ⟨1, .appendRange 1 0 1⟩,
    ⟨0, .copyUnits 1 (.list [1, 7, 0])⟩]

theorem run_keeps_integrity_crossing :
    (∀ r, (∃ schema, blank r = .empty schema) ∨ (blank r).violation? = none) ∧
      blank.StaysSmall crossing ∧ ∀ taken, taken <+: crossing → ∃ after,
        blank.run taken = .ok after ∧ ∀ r, (after r).violation? = none ∧ (after r).Readable :=
  ⟨fun _ => Or.inl ⟨.acceptor, rfl⟩, by decide +kernel,
    run_keeps_integrity blank (fun _ => Or.inl ⟨.acceptor, rfl⟩) crossing (by decide +kernel)⟩

end Workspace

end steps

end WeightedAutomata
