-- Which texts are patterns, and what is reported of those that are not: the first place where no
-- token begins, or else the last parenthesis that is left open. Nothing else goes wrong, and a
-- text that is a pattern becomes an acceptor with one unit and one final state.
import WeightedAutomata.Proofs.Pattern.Acceptance
import WeightedAutomata.Proofs.Pattern.Assembly
import WeightedAutomata.Proofs.Pattern.Lexing
import WeightedAutomata.Proofs.Pattern.Parentheses
import WeightedAutomata.Proofs.Reading

namespace WeightedAutomata

namespace Pattern

/-! ## Errors of parsing -/

variable {pattern : List Char} {p : Nat}

theorem tokens_ne_unmatchedParen (pattern : List Char) (p : Nat) :
    tokens 0 pattern ≠ .error (.unmatchedParen p) := by
  intro h
  obtain ⟨text, placed, rest, -, -, hstuck⟩ := (tokens_eq_error_iff _ _).1 h
  cases hstuck

/-- Reading whole tokens ends in an expression, or at a group that is left open. -/
theorem Reading.finish_cases (r : Reading) :
    (∃ e, r.finish = .ok e) ∨ ∃ p, r.finish = .error (.unmatchedParen p) := by
  unfold finish
  cases r.groups with
  | nil => exact Or.inl ⟨_, rfl⟩
  | cons group groups => exact Or.inr ⟨_, rfl⟩

theorem parse_eq_error_iff {error : PatternError} (hparen : ∀ p, error ≠ .unmatchedParen p) :
    parse pattern = .error error ↔ tokens 0 pattern = .error error := by
  unfold parse
  cases htokens : tokens 0 pattern with
  | error error' => simp
  | ok placed =>
    refine ⟨?_, nofun⟩
    intro h
    rcases (placed.foldl Reading.read {}).finish_cases with ⟨e, hfinish⟩ | ⟨p, hfinish⟩
    · dsimp only at h
      rw [hfinish] at h
      cases h
    · dsimp only at h
      rw [hfinish, Except.error.injEq] at h
      exact absurd h.symm (hparen p)

theorem parse_trailingEscape_iff : parse pattern = .error (.trailingEscape p) ↔
    ∃ text placed, pattern = text ++ ['\\'] ∧ Scanned text placed ['\\'] ∧ p = text.length := by
  have hother : ∀ q, PatternError.trailingEscape p ≠ .unmatchedParen q := nofun
  rw [parse_eq_error_iff hother, tokens_eq_error_iff]
  refine ⟨?_, ?_⟩
  · rintro ⟨text, placed, rest, rfl, hscanned, hstuck⟩
    cases hstuck
    exact ⟨text, placed, rfl, hscanned, rfl⟩
  · rintro ⟨text, placed, rfl, hscanned, rfl⟩
    exact ⟨text, placed, _, rfl, hscanned, .escape⟩

theorem parse_unmatchedBracket_iff : parse pattern = .error (.unmatchedBracket p) ↔
    ∃ text placed cs, pattern = text ++ '[' :: cs ∧ Scanned text placed ('[' :: cs) ∧
      (∀ words rest members, cs = words ++ rest → ¬ Body words members rest) ∧
      p = text.length := by
  have hother : ∀ q, PatternError.unmatchedBracket p ≠ .unmatchedParen q := nofun
  rw [parse_eq_error_iff hother, tokens_eq_error_iff]
  refine ⟨?_, ?_⟩
  · rintro ⟨text, placed, rest, rfl, hscanned, hstuck⟩
    cases hstuck with
    | bracket hnot => exact ⟨text, placed, _, rfl, hscanned, hnot, rfl⟩
  · rintro ⟨text, placed, cs, rfl, hscanned, hnot, rfl⟩
    exact ⟨text, placed, _, rfl, hscanned, .bracket hnot⟩

/-- A bracket that is not closed is reported before the backslash in it. -/
example : parse "a[b\\".toList = .error (.unmatchedBracket 1) := by cbv

theorem parse_unmatchedParen_iff : parse pattern = .error (.unmatchedParen p) ↔
    ∃ placed, Scanned pattern placed [] ∧ LeftOpen placed p ∧
      ∀ q, LeftOpen placed q → q ≤ p := by
  unfold parse
  simp only [← tokens_eq_ok_iff]
  cases htokens : tokens 0 pattern with
  | error error =>
    have hother := tokens_ne_unmatchedParen pattern p
    rw [htokens] at hother
    simpa using hother
  | ok placed =>
    have hordered := ((tokens_eq_ok_iff pattern placed).1 htokens).positions.2
    dsimp only
    rw [finish_eq_error_iff hordered]
    simp

/-- The group that opens at 1 is left open, and the one behind it is closed. -/
example : parse "x(a(b)".toList = .error (.unmatchedParen 1) := by cbv

theorem exists_parse_iff : (∃ e, parse pattern = .ok e) ↔
    ∃ placed, Scanned pattern placed [] ∧ ∀ p, ¬ LeftOpen placed p := by
  unfold parse
  simp only [← tokens_eq_ok_iff]
  cases htokens : tokens 0 pattern with
  | error error => simp
  | ok placed =>
    dsimp only
    rw [exists_finish_iff]
    simp

end Pattern

namespace Automaton

open Pattern

/-! ## Compiling -/

variable {pattern : String}

theorem compilePattern_done_iff (a after : Automaton) :
    a.compilePattern pattern = .done () after ↔ ∃ e, parse pattern.toList = .ok e ∧
      after = ofMachines .acceptor [e.machine ("Regex: " ++ pattern)] := by
  unfold compilePattern ofPattern
  cases parse pattern.toList with
  | error error => simp
  | ok e => simp [eq_comm]

theorem compilePattern_refused_iff (a : Automaton) (error : PatternError) :
    a.compilePattern pattern = .refused (.pattern error) (empty .acceptor) ↔
      parse pattern.toList = .error error := by
  unfold compilePattern ofPattern
  cases parse pattern.toList with
  | error error' => simp
  | ok e => simp

/-- What a pattern becomes: an acceptor with one unit, which has a start state and one final
state, and without symbols. -/
structure Compiled (pattern : String) (after : Automaton) : Prop where
  unit : ∃ m, after.machines = [m] ∧ m.name = "Regex: " ++ pattern ∧ 0 < m.flags.length
  schema : after.schema = .acceptor
  inputSymbols : after.inputSymbols = {}
  outputSymbols : after.outputSymbols = {}
  final : ∃! state, after.isFinal 0 state = .ok true
  sound : after.violation? = none

theorem compiled_ofMachines (e : Expr) (pattern : String) :
    Compiled pattern (ofMachines .acceptor [e.machine ("Regex: " ++ pattern)]) := by
  have hsound : (ofMachines .acceptor [e.machine ("Regex: " ++ pattern)]).violation? = none :=
    violation?_ofMachines (by simpa using e.fits_machine _) {} {}
  have hunit : (ofMachines .acceptor [e.machine ("Regex: " ++ pattern)]).machines[0]? =
      some (e.machine ("Regex: " ++ pattern)) := by
    rw [machines_ofMachines]
    rfl
  refine ⟨⟨_, machines_ofMachines _ _ _ _, rfl, ?_⟩, rfl, rfl, rfl, ?_, hsound⟩
  · exact List.length_pos_of_ne_nil (e.flags_machine_ne_nil _)
  · -- A state is final when its flag byte says so, and that of the exit alone does.
    have hfinal : ∀ state, (ofMachines .acceptor [e.machine ("Regex: " ++ pattern)]).isFinal 0
        state = .ok true ↔ state = (e.draw 0 Draft.start).1 := by
      intro state
      rw [isFinal_eq hsound hunit, ← e.isFinal_machine_iff ("Regex: " ++ pattern), Machine.IsFinal]
      cases (e.machine ("Regex: " ++ pattern)).flags[state]? with
      | none => simp [Flags.isFinal]
      | some flags => simp
    exact ⟨_, (hfinal _).2 rfl, fun state => (hfinal state).1⟩

/-- What compiling a text comes to, whatever there was before. -/
structure CompilesExactly (a : Automaton) (pattern : String) : Prop where
  /-- A backslash is reported where the scan comes to it as the last character. -/
  trailingEscape : ∀ p,
    a.compilePattern pattern = .refused (.pattern (.trailingEscape p)) (empty .acceptor) ↔
      ∃ text placed, pattern.toList = text ++ ['\\'] ∧ Scanned text placed ['\\'] ∧
        p = text.length
  /-- A bracket is reported where the scan comes to it and no class follows. -/
  unmatchedBracket : ∀ p,
    a.compilePattern pattern = .refused (.pattern (.unmatchedBracket p)) (empty .acceptor) ↔
      ∃ text placed cs, pattern.toList = text ++ '[' :: cs ∧ Scanned text placed ('[' :: cs) ∧
        (∀ words rest members, cs = words ++ rest → ¬ Body words members rest) ∧ p = text.length
  /-- A parenthesis is reported if the scan comes to the end and it is the last one left open. -/
  unmatchedParen : ∀ p,
    a.compilePattern pattern = .refused (.pattern (.unmatchedParen p)) (empty .acceptor) ↔
      ∃ placed, Scanned pattern.toList placed [] ∧ LeftOpen placed p ∧
        ∀ q, LeftOpen placed q → q ≤ p
  /-- A text is a pattern if the scan comes to the end and no parenthesis is left open. -/
  accepted : (∃ after, a.compilePattern pattern = .done () after) ↔
    ∃ placed, Scanned pattern.toList placed [] ∧ ∀ p, ¬ LeftOpen placed p
  /-- A refusal is for one of these reasons and leaves an acceptor without units. -/
  doneOrRefused : (∃ after, a.compilePattern pattern = .done () after) ∨ ∃ error,
    a.compilePattern pattern = .refused (.pattern error) (empty .acceptor)
  compiled : ∀ after, a.compilePattern pattern = .done () after → Compiled pattern after
  /-- It comes to the same when the automaton is assembled by edits that could be refused. -/
  assembled : a.assemblePattern pattern = a.compilePattern pattern

/-- Compiling accepts what the scan of a text accepts, and reports what it reports. -/
theorem compilePattern_exact (a : Automaton) (pattern : String) : a.CompilesExactly pattern where
  trailingEscape := fun p => (a.compilePattern_refused_iff _).trans parse_trailingEscape_iff
  unmatchedBracket := fun p => (a.compilePattern_refused_iff _).trans parse_unmatchedBracket_iff
  unmatchedParen := fun p => (a.compilePattern_refused_iff _).trans parse_unmatchedParen_iff
  accepted := by
    rw [← exists_parse_iff]
    simp only [compilePattern_done_iff]
    exact ⟨fun ⟨_, e, he, _⟩ => ⟨e, he⟩, fun ⟨e, he⟩ => ⟨_, e, he, rfl⟩⟩
  doneOrRefused := by
    simp only [compilePattern_done_iff, compilePattern_refused_iff]
    cases hparse : parse pattern.toList with
    | ok e => exact Or.inl ⟨_, e, rfl, rfl⟩
    | error error => exact Or.inr ⟨error, rfl⟩
  compiled := by
    intro after h
    obtain ⟨e, -, rfl⟩ := (compilePattern_done_iff a after).1 h
    exact compiled_ofMachines e pattern
  assembled := a.assemblePattern_eq pattern

end Automaton

end WeightedAutomata
