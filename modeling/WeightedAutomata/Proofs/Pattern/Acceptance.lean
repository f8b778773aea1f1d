-- Patterns and the automata compiled from them. The automaton of a pattern finds the leftmost
-- longest part of a text that the expression of the pattern lets pass. No part that the pattern
-- means starts before it, or is longer from the same start. But what is found need not be meant:
-- `(a*b)?` does not mean the letter a, and finds it.
import WeightedAutomata.Proofs.DepthLimit
import WeightedAutomata.Proofs.Pattern.Composite
import WeightedAutomata.Proofs.Pattern.Grammar

namespace WeightedAutomata

open Relation

namespace Pattern

/-! ## What a pattern means and lets pass -/

/-- A pattern can be read between two positions. -/
def Means (pattern : String) (text : List Char) (start stop : Nat) : Prop :=
  ∃ e, Spells pattern.toList e ∧ e.Matches text start stop

/-- The characters between two positions pass through what is drawn for a pattern. -/
def Passes (pattern : String) (text : List Char) (start stop : Nat) : Prop :=
  ∃ e, Spells pattern.toList e ∧ e.Passes text start stop

theorem Spells.unique {pattern : List Char} {e e' : Expr} (h : Spells pattern e)
    (h' : Spells pattern e') : e = e' := by
  rw [← parse_eq_ok_iff] at h h'
  rw [h] at h'
  exact Except.ok.inj h'

theorem passes_of_means {pattern : String} {text : List Char} {start stop : Nat}
    (h : Means pattern text start stop) : Passes pattern text start stop := by
  obtain ⟨e, hspells, hmatches⟩ := h
  exact ⟨e, hspells, Expr.passes_of_matches hmatches⟩

theorem passes_iff {pattern : String} {e : Expr} (hspells : Spells pattern.toList e)
    (text : List Char) (start stop : Nat) :
    Passes pattern text start stop ↔ e.Passes text start stop := by
  refine ⟨?_, ?_⟩
  · intro h
    rcases h with ⟨e', hspells', h⟩
    rw [hspells.unique hspells']
    exact h
  · exact fun h => ⟨e, hspells, h⟩

/-! ## The machine of an expression -/

section machine

variable (e : Expr) (name : String)

/-- The transitions of the machine of an expression are what is drawn from its start. -/
theorem Expr.drawing_machine :
    Drawing e 0 Draft.start (e.draw 0 Draft.start) (e.machine name).transitions := by
  have hstart : 0 < Draft.start.stateCount := Nat.one_pos
  obtain ⟨arcs, h⟩ := e.exists_drawing hstart
  have harcs : (e.machine name).transitions = arcs := by
    simpa [Expr.machine, Draft.start] using h.arcs_eq
  rw [harcs]
  exact h

theorem Expr.length_flags_machine :
    (e.machine name).flags.length = (e.draw 0 Draft.start).2.stateCount := by
  simp [Expr.machine]

theorem Expr.lt_length_flags_machine {state : Nat}
    (h : Owned 0 1 (e.draw 0 Draft.start).2.stateCount state) :
    state < (e.machine name).flags.length := by
  have hgrows : 1 ≤ (e.draw 0 Draft.start).2.stateCount := (e.drawing_machine name).drawn.grows
  rw [e.length_flags_machine name]
  unfold Owned at h
  omega

theorem Expr.flags_machine_ne_nil : (e.machine name).flags ≠ [] :=
  List.ne_nil_of_length_pos (e.lt_length_flags_machine name (Or.inl rfl))

/-- The exit is the only final state. -/
theorem Expr.isFinal_machine_iff (state : Nat) :
    (e.machine name).IsFinal state ↔ state = (e.draw 0 Draft.start).1 := by
  have hexit := e.lt_length_flags_machine name (e.drawing_machine name).drawn.exit_owned
  rw [e.length_flags_machine name] at hexit
  simp only [Machine.IsFinal, Expr.machine, List.getElem?_set, List.getElem?_replicate,
    List.length_replicate]
  by_cases hstate : (e.draw 0 Draft.start).1 = state
  · rw [if_pos hstate, if_pos (hstate ▸ hexit)]
    exact ⟨fun _ => hstate.symm, fun _ => ⟨_, rfl, rfl⟩⟩
  · rw [if_neg hstate]
    refine ⟨?_, fun h => absurd h.symm hstate⟩
    intro h
    rcases h with ⟨flags, hflags, hfinal⟩
    split at hflags
    · cases hflags
      cases hfinal
    · cases hflags

theorem Expr.fits_machine : (e.machine name).Fits .acceptor := by
  have h := (e.drawing_machine name).drawn
  refine ⟨?_, h.admitted⟩
  intro t ht
  exact ⟨e.lt_length_flags_machine name (h.source t ht),
    e.lt_length_flags_machine name (h.target t ht)⟩

/-- No marker is final, so that the final state changes no edge. -/
theorem Expr.moves_machine (text : List Char) :
    (e.machine name).Moves text = (Machine.ofArcs (e.machine name).transitions).Moves text := by
  have hleads : ∀ t ∈ (e.machine name).transitions, ∀ p w, ((e.machine name).Leads text t p w ↔
      (Machine.ofArcs (e.machine name).transitions).Leads text t p w) := by
    intro t ht p w
    apply Machine.Leads.congr
    · intro hlabel
      have hmarker := (e.drawing_machine name).drawn.marker t ht hlabel
      rw [e.isFinal_machine_iff name]
      exact iff_of_false hmarker.2.2 (Machine.not_isFinal_ofArcs _ _)
    · intro _
      rfl
  funext v w
  apply propext
  refine ⟨?_, ?_⟩
  · intro h
    rcases h with ⟨t, ht, hsource, hmoves⟩
    exact ⟨t, ht, hsource, (hleads t ht v.2 w).1 hmoves⟩
  · intro h
    rcases h with ⟨t, ht, hsource, hmoves⟩
    exact ⟨t, ht, hsource, (hleads t ht v.2 w).2 hmoves⟩

/-- The machine of an expression accepts what passes through the expression. -/
theorem Expr.accepts_machine_iff {text : List Char} (htext : text ≠ []) (start stop : Nat) :
    (e.machine name).Accepts text start stop ↔ e.Passes text start stop := by
  unfold Machine.Accepts Expr.Passes
  rw [e.moves_machine name, ← (e.drawing_machine name).leads text htext]
  refine ⟨?_, ?_⟩
  · intro h
    rcases h with ⟨state, hstate, hmoves⟩
    rw [(e.isFinal_machine_iff name state).1 hstate] at hmoves
    exact hmoves
  · intro hmoves
    exact ⟨_, (e.isFinal_machine_iff name _).2 rfl, hmoves⟩

end machine

/-! ## A pattern that lets more pass than it means -/

/-- The expression of the pattern `(a*b)?`. -/
def loopThenB : Expr :=
  .seq (.quantified .optional (.seq (.quantified .star (.atom (.char 'a')))
    (.seq (.atom (.char 'b')) .empty))) .empty

theorem spells_loopThenB : Spells "(a*b)?".toList loopThenB := by
  rw [← parse_eq_ok_iff]
  cbv

/-- One round of the star leads back to the entry, and from there the way around the group. -/
theorem passes_loopThenB : loopThenB.Passes ['a'] 0 1 := by
  have hletter : (Expr.atom (.char 'a')).Leads ['a'] (.entry, 0) (.exit, 1) :=
    Or.inr ⟨rfl, rfl, rfl, rfl⟩
  have hstar : (Expr.quantified .star (.atom (.char 'a'))).Leads ['a'] (.entry, 0) (.entry, 1) :=
    .tail (.single (Or.inl (leap_of hletter))) (Or.inr ⟨.starBack, rfl⟩)
  have hgroup : (Expr.seq (.quantified .star (.atom (.char 'a')))
      (.seq (.atom (.char 'b')) .empty)).Leads ['a'] (.entry, 0) (.entry, 1) :=
    .single (Or.inl (leap_of hstar))
  have hoptional : (Expr.quantified .optional (.seq (.quantified .star (.atom (.char 'a')))
      (.seq (.atom (.char 'b')) .empty))).Leads ['a'] (.entry, 0) (.exit, 1) :=
    .tail (.single (Or.inl (leap_of hgroup))) (Or.inr ⟨.optionalAround, rfl⟩)
  have hempty : Expr.empty.Leads ['a'] (.entry, 1) (.exit, 1) := rfl
  exact .tail (.single (Or.inl (leap_of hoptional))) (Or.inr (leap_of hempty))

theorem not_matches_loopThenB : ¬ loopThenB.Matches ['a'] 0 1 := by
  intro h
  rcases h with ⟨p, hoptional, rfl⟩
  cases hoptional with
  | single hgroup =>
    obtain ⟨p, -, q, ⟨hletter, -⟩, -⟩ := hgroup
    rcases p with _ | p
    · cases hletter
    · cases hletter

theorem not_means_loopThenB : ¬ Means "(a*b)?" ['a'] 0 1 := by
  intro h
  rcases h with ⟨e, hspells, hmatches⟩
  rw [hspells.unique spells_loopThenB] at hmatches
  exact not_matches_loopThenB hmatches

theorem isLeftmostLongest_loopThenB :
    IsLeftmostLongest (Passes "(a*b)?" ['a']) 1 (some ⟨0, 1⟩) := by
  refine ⟨Nat.one_pos, ⟨_, spells_loopThenB, passes_loopThenB⟩, ?_, ?_⟩
  · intro stop hstop
    rw [passes_iff spells_loopThenB, ← loopThenB.accepts_machine_iff "" (by simp)] at hstop
    exact hstop.stop_le (Nat.zero_le _)
  · intro start hlt
    cases hlt

end Pattern

namespace Automaton

open Pattern

/-! ## What the automaton of a pattern finds -/

section ofPattern

variable {pattern : String} {a : Automaton}

theorem ofPattern_eq_ok_iff (pattern : String) (a : Automaton) :
    ofPattern pattern = .ok a ↔ ∃ e, Spells pattern.toList e ∧
      a = ofMachines .acceptor [e.machine ("Regex: " ++ pattern)] := by
  unfold ofPattern
  simp only [← parse_eq_ok_iff]
  cases parse pattern.toList with
  | error error => simp
  | ok e => simp [eq_comm]

/-- The automaton of a pattern is sound, and its machine is that of the expression. -/
theorem exists_expr_of_ofPattern (h : ofPattern pattern = .ok a) : ∃ e name,
    Spells pattern.toList e ∧ a.violation? = none ∧ a.machines.head? = some (e.machine name) := by
  obtain ⟨e, hspells, rfl⟩ := (ofPattern_eq_ok_iff pattern a).1 h
  refine ⟨e, "Regex: " ++ pattern, hspells, (violation?_eq_none_iff _).2 ⟨_, ?_, rfl⟩, ?_⟩
  · rw [List.forall_mem_singleton]
    exact e.fits_machine _
  · rw [machines_ofMachines]
    rfl

theorem isLeftmostLongest_of_find_ofPattern (h : ofPattern pattern = .ok a) {text : String}
    {config : Search.Config} {found : Option Match} (hfound : a.find text config = .ok found) :
    IsLeftmostLongest (Passes pattern text.toList) text.toList.length found := by
  obtain ⟨e, name, hspells, hsound, hfirst⟩ := exists_expr_of_ofPattern h
  refine (IsLeftmostLongest.congr (fun start hlt stop => ?_) found).1
    (isLeftmostLongest_of_find hsound hfirst (e.flags_machine_ne_nil name) hfound)
  rw [passes_iff hspells]
  exact e.accepts_machine_iff name (List.ne_nil_of_length_pos (Nat.zero_lt_of_lt hlt)) start stop

/-- A limit as large as the graph of the machine is large enough for an answer. -/
theorem exists_find_of_le (h : ofPattern pattern = .ok a) {m : Machine}
    (hfirst : a.machines.head? = some m) {text : String} {config : Search.Config}
    (hle : m.flags.length * (text.toList.length + 1) ≤ config.maxDepth) :
    ∃ found, a.find text config = .ok found := by
  obtain ⟨e, name, -, hsound, hfirst'⟩ := exists_expr_of_ofPattern h
  obtain rfl : m = e.machine name := Option.some.inj (hfirst.symm.trans hfirst')
  have hstates := e.flags_machine_ne_nil name
  have hclosed := (e.fits_machine name).closed
  exact exists_ok_of_not_tooDeep hsound hfirst hstates
    (Machine.not_tooDeep hclosed hstates text.toList hle)

theorem ofPattern_loopThenB : ofPattern "(a*b)?" =
    .ok (ofMachines .acceptor [loopThenB.machine ("Regex: " ++ "(a*b)?")]) :=
  (ofPattern_eq_ok_iff _ _).2 ⟨_, spells_loopThenB, rfl⟩

/-- The machine has five states, few enough for short texts and the usual limit. -/
theorem exists_find_loopThenB (text : String) (hle : 5 * (text.toList.length + 1) ≤ 1048576) :
    ∃ found, (ofMachines .acceptor [loopThenB.machine ("Regex: " ++ "(a*b)?")]).find text =
      .ok found :=
  exists_find_of_le ofPattern_loopThenB rfl hle

/-- What is found is the leftmost longest part that passes, whatever the limit. So in a text
only parts that the pattern means are found exactly where that part, if any, is one of them. -/
theorem find_means_iff (h : ofPattern pattern = .ok a) (text : String) :
    (∀ config found, a.find text config = .ok found →
      IsLeftmostLongest (Passes pattern text.toList) text.toList.length found) ∧
    ((∀ config m, a.find text config = .ok (some m) →
        Means pattern text.toList m.start m.stop) ↔
      ∀ m, IsLeftmostLongest (Passes pattern text.toList) text.toList.length (some m) →
        Means pattern text.toList m.start m.stop) := by
  have hleftmost : ∀ config found, a.find text config = .ok found →
      IsLeftmostLongest (Passes pattern text.toList) text.toList.length found :=
    fun config found hfound => isLeftmostLongest_of_find_ofPattern h hfound
  refine ⟨hleftmost, ?_, ?_⟩
  · intro hmeans m hm
    obtain ⟨e, name, -, -, hfirst⟩ := exists_expr_of_ofPattern h
    obtain ⟨found, hfound⟩ :
        ∃ found, a.find text ⟨true, (e.machine name).flags.length * (text.toList.length + 1)⟩ =
          .ok found := exists_find_of_le h hfirst (Nat.le_refl _)
    rw [(hleftmost _ found hfound).unique hm] at hfound
    exact hmeans _ m hfound
  · intro hmeans config m hfound
    exact hmeans m (hleftmost config _ hfound)

/-- In the text of the letter a neither side of the equivalence holds. -/
theorem find_means_iff_loopThenB : ∃ a, ofPattern "(a*b)?" = .ok a ∧
    (∀ config found, a.find "a" config = .ok found →
      IsLeftmostLongest (Passes "(a*b)?" "a".toList) "a".toList.length found) ∧
    ((∀ config m, a.find "a" config = .ok (some m) →
        Means "(a*b)?" "a".toList m.start m.stop) ↔
      ∀ m, IsLeftmostLongest (Passes "(a*b)?" "a".toList) "a".toList.length (some m) →
        Means "(a*b)?" "a".toList m.start m.stop) ∧
    ¬ ∀ config m, a.find "a" config = .ok (some m) →
      Means "(a*b)?" "a".toList m.start m.stop := by
  obtain ⟨hleftmost, hiff⟩ := find_means_iff ofPattern_loopThenB "a"
  refine ⟨_, ofPattern_loopThenB, hleftmost, hiff, ?_⟩
  intro hmeans
  exact not_means_loopThenB (hiff.1 hmeans ⟨0, 1⟩ isLeftmostLongest_loopThenB)

/-- The letter a is found, and `(a*b)?` does not mean it. -/
theorem find_more_than_means : ∃ a, ofPattern "(a*b)?" = .ok a ∧
    a.find "a" = .ok (some ⟨0, 1⟩) ∧ ¬ Means "(a*b)?" "a".toList 0 1 := by
  refine ⟨_, ofPattern_loopThenB, ?_, not_means_loopThenB⟩
  obtain ⟨found, hfound⟩ := exists_find_loopThenB "a" (by decide)
  have hleftmost := isLeftmostLongest_of_find_ofPattern ofPattern_loopThenB hfound
  rw [hfound, hleftmost.unique isLeftmostLongest_loopThenB]

/-- Where a pattern can be read between two positions, a match is found at the first of them or
before it, and one found there is at least as long. -/
theorem find_covers_means (h : ofPattern pattern = .ok a) {text : String} {start stop : Nat}
    (hstart : start < text.toList.length) (hmeans : Means pattern text.toList start stop)
    {config : Search.Config} {found : Option Match} (hfound : a.find text config = .ok found) :
    ∃ m, found = some m ∧ m.start ≤ start ∧ (m.start = start → stop - start ≤ m.length) := by
  have hleftmost := isLeftmostLongest_of_find_ofPattern h hfound
  have hpasses := passes_of_means hmeans
  rcases found with _ | m
  · exact absurd hpasses (hleftmost start hstart stop)
  · obtain ⟨-, -, hlongest, hleft⟩ := hleftmost
    refine ⟨m, rfl, ?_, ?_⟩
    · by_contra hlt
      exact hleft start (Nat.lt_of_not_le hlt) stop hpasses
    · rintro rfl
      have hle := hlongest stop hpasses
      rw [Match.stop] at hle
      omega

theorem find_covers_means_loopThenB : ∃ a found m, ofPattern "(a*b)?" = .ok a ∧
    a.find "ab" = .ok found ∧ Means "(a*b)?" "ab".toList 0 2 ∧
      found = some m ∧ m.start ≤ 0 ∧ (m.start = 0 → 2 - 0 ≤ m.length) := by
  obtain ⟨found, hfound⟩ := exists_find_loopThenB "ab" (by decide)
  have hmeans : Means "(a*b)?" "ab".toList 0 2 :=
    ⟨_, spells_loopThenB, 2, .single ⟨1, .single ⟨rfl, rfl⟩, 2, ⟨rfl, rfl⟩, rfl⟩, rfl⟩
  obtain ⟨m, hm⟩ := find_covers_means ofPattern_loopThenB (by decide) hmeans hfound
  exact ⟨_, found, m, ofPattern_loopThenB, hfound, hmeans, hm⟩

end ofPattern

end Automaton

end WeightedAutomata
