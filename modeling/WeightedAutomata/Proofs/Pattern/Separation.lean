-- Patterns that find just what they mean. The parts of a pattern share states, and the arcs of
-- quantifiers leave from and lead to them. In a separated pattern no such arc is gone along in
-- the wrong place, so that every way through it is one that the pattern means.
import WeightedAutomata.Proofs.Pattern.Acceptance

namespace WeightedAutomata

open Relation

namespace Pattern

/-! ## Separated patterns -/

/-- The arcs that drawing an expression adds. -/
def Expr.arcs (e : Expr) (entry : Nat) (d : Draft) : List Transition :=
  (e.draw entry d).2.arcs.toList.drop d.arcs.toList.length

/-- Where a part is repeated, nothing drawn before it leaves its entry. Where a part can be left
out after any number of rounds, none of its own arcs leads back to its entry. -/
def Expr.Separated (entry : Nat) (d : Draft) : Expr → Prop
  | empty => True
  | atom _ => True
  | seq e e' => e.Separated entry d ∧ e'.Separated (e.draw entry d).1 (e.draw entry d).2
  | quantified q e => e.Separated entry d ∧
      (q ≠ .optional → ∀ t ∈ d.arcs.toList, t.source ≠ entry) ∧
      (q ≠ .plus → ∀ t ∈ e.arcs entry d, t.target ≠ entry)

instance Expr.decidableSeparated : (e : Expr) → (entry : Nat) → (d : Draft) →
    Decidable (e.Separated entry d)
  | empty, _, _ => isTrue trivial
  | atom _, _, _ => isTrue trivial
  | seq e e', entry, d =>
    have := e.decidableSeparated entry d
    have := e'.decidableSeparated (e.draw entry d).1 (e.draw entry d).2
    inferInstanceAs (Decidable (_ ∧ _))
  | quantified _ e, entry, d =>
    have := e.decidableSeparated entry d
    inferInstanceAs (Decidable (_ ∧ (_ → _) ∧ (_ → _)))

/-- A pattern is separated when the expression that it writes is, drawn from the start. -/
def Separated (pattern : String) : Prop :=
  ∃ e, Spells pattern.toList e ∧ e.Separated 0 Draft.start

/-! ## The arcs of a part -/

section arcs

variable {e e' : Expr} {entry : Nat} {d : Draft}

theorem Drawing.arcs_eq_arcs {arcs : List Transition}
    (h : Drawing e entry d (e.draw entry d) arcs) : e.arcs entry d = arcs := by
  rw [Expr.arcs, h.arcs_eq, List.drop_left]

theorem Expr.drawing (e : Expr) (hentry : entry < d.stateCount) :
    Drawing e entry d (e.draw entry d) (e.arcs entry d) := by
  obtain ⟨arcs, h⟩ := e.exists_drawing hentry
  rwa [h.arcs_eq_arcs]

theorem Expr.arcs_seq (e e' : Expr) (hentry : entry < d.stateCount) :
    (seq e e').arcs entry d =
      e.arcs entry d ++ e'.arcs (e.draw entry d).1 (e.draw entry d).2 :=
  ((e.drawing hentry).seq hentry (e'.drawing (e.exit_lt hentry))).arcs_eq_arcs

theorem Expr.arcs_quantified (q : Quantifier) (e : Expr) (hentry : entry < d.stateCount) :
    (quantified q e).arcs entry d = e.arcs entry d ++ q.arcs entry (e.draw entry d).1
      (q.draw entry (e.draw entry d).1 (e.draw entry d).2).1 :=
  ((e.drawing hentry).quantified hentry).arcs_eq_arcs

theorem Draft.le_target_branch {label : Label} {t : Transition} {a : Atom}
    (hdraw : a.draw entry d = d.branch entry label) (ht : t ∈ (Expr.atom a).arcs entry d) :
    d.stateCount ≤ t.target := by
  simp only [Expr.arcs, Expr.draw, hdraw, Draft.branch, Draft.state, toList_arcs_arc,
    List.drop_left, List.mem_singleton] at ht
  rw [ht]

/-- The arcs of an atom lead to new states. -/
theorem Atom.le_target (a : Atom) (hentry : entry < d.stateCount) {t : Transition}
    (ht : t ∈ (Expr.atom a).arcs entry d) : d.stateCount ≤ t.target := by
  cases a with
  | char | any | textStart | textEnd => exact Draft.le_target_branch rfl ht
  | oneOf members =>
    rw [(drawing_class hentry).arcs_eq_arcs] at ht
    rcases (CharClass.mem_arcs ht).2 with ⟨-, htarget, -⟩ | ⟨-, -, htarget, -⟩
    · exact Nat.le_of_eq htarget.symm
    · rw [htarget]
      exact Nat.le_succ _

/-- If an arc of a part leads back to the entry, the part begins with a repetition. So nothing
drawn before leaves the entry. -/
theorem Expr.Separated.not_left (hseparated : e.Separated entry d) (hentry : entry < d.stateCount)
    {t : Transition} (ht : t ∈ e.arcs entry d) (htarget : t.target = entry) :
    ∀ u ∈ d.arcs.toList, u.source ≠ entry := by
  induction e generalizing entry d with
  | empty =>
    rw [(drawing_empty entry d).arcs_eq_arcs] at ht
    cases ht
  | atom a =>
    have hle := a.le_target hentry ht
    omega
  | seq e e' ih ih' =>
    rw [arcs_seq e e' hentry] at ht
    rcases List.mem_append.1 ht with ht | ht
    · exact ih hseparated.1 hentry ht htarget
    · -- An arc of the second part leads to an old state only if that is the middle.
      have hdrawn := (e.drawing hentry).drawn
      have hmiddle := ((e'.drawing (e.exit_lt hentry)).drawn.target t ht)
      have hgrows := hdrawn.grows
      have heq : (e.draw entry d).1 = entry := by
        unfold Owned at hmiddle
        omega
      intro u hu
      have hleft := ih' hseparated.2 (e.exit_lt hentry) ht (htarget.trans heq.symm)
      rw [heq, (e.drawing hentry).arcs_eq] at hleft
      exact hleft u (List.mem_append_left _ hu)
  | quantified q e ih =>
    obtain ⟨hseparated, hrepeated, -⟩ := hseparated
    rw [arcs_quantified q e hentry] at ht
    rcases List.mem_append.1 ht with ht | ht
    · exact ih hseparated hentry ht htarget
    · apply hrepeated
      rintro rfl
      -- Both arcs of what may be left out lead to its new exit.
      have hgrows := (e.drawing hentry).drawn.grows
      have hexit : t.target = (e.draw entry d).2.stateCount := by
        rcases List.mem_pair.1 ht with rfl | rfl
        · rfl
        · rfl
      omega

end arcs

/-! ## Ways through a separated part -/

section ways

variable {text : List Char} {entry middle exit n n' n'' : Nat} {arcs arcs' : List Transition}
  {p p' : Nat} {M : Nat → Nat → Prop}

/-- If the first part is not left again by the middle, or the second part not by its entry, a way
through both goes through the first part and then through the second. -/
theorem Drawn.exists_middle (hentry : entry < n) (h : Drawn entry middle n n' arcs)
    (h' : Drawn middle exit n' n'' arcs')
    (hturn : (∀ t ∈ arcs, t.source ≠ middle) ∨ ∀ t ∈ arcs', t.target ≠ middle)
    (hway : ReflTransGen (fun v w => (Machine.ofArcs arcs).Moves text v w ∨
      (Machine.ofArcs arcs').Moves text v w) (entry, p) (exit, p')) :
    ∃ r, ReflTransGen ((Machine.ofArcs arcs).Moves text) (entry, p) (middle, r) ∧
      ReflTransGen ((Machine.ofArcs arcs').Moves text) (middle, r) (exit, p') := by
  have hgrows := h.grows
  -- A state of both parts is the middle.
  have hmiddle : ∀ {state}, Owned entry n n' state → Owned middle n' n'' state →
      state = middle := by
    unfold Owned
    omega
  suffices hall : ∀ y, ReflTransGen (fun v w => (Machine.ofArcs arcs).Moves text v w ∨
      (Machine.ofArcs arcs').Moves text v w) (entry, p) y →
      (Owned entry n n' y.1 ∧ ReflTransGen ((Machine.ofArcs arcs).Moves text) (entry, p) y) ∨
      ∃ r, ReflTransGen ((Machine.ofArcs arcs).Moves text) (entry, p) (middle, r) ∧
        TransGen ((Machine.ofArcs arcs').Moves text) (middle, r) y by
    rcases hall _ hway with ⟨howned, hfirst⟩ | ⟨r, hfirst, hsecond⟩
    · obtain rfl := hmiddle howned h'.exit_owned
      exact ⟨p', hfirst, .refl⟩
    · exact ⟨r, hfirst, hsecond.to_reflTransGen⟩
  intro y hy
  induction hy with
  | refl => exact Or.inl ⟨Or.inl rfl, .refl⟩
  | @tail y z _ hyz ih =>
    rcases ih with ⟨howned, hfirst⟩ | ⟨r, hfirst, hsecond⟩
    · rcases hyz with hyz | hyz
      · exact Or.inl ⟨(h.owned_of_moves hyz).2, hfirst.tail hyz⟩
      · obtain ⟨state, r⟩ := y
        obtain rfl : state = middle := hmiddle howned (h'.owned_of_moves hyz).1
        exact Or.inr ⟨r, hfirst, .single hyz⟩
    · rcases hyz with hyz | hyz
      · obtain ⟨x, -, hxy⟩ := TransGen.tail'_iff.1 hsecond
        have hstate := hmiddle (h.owned_of_moves hyz).1 (h'.owned_of_moves hxy).2
        obtain ⟨t, ht, hsource⟩ := hyz.exists_source
        obtain ⟨t', ht', htarget⟩ := hxy.exists_target
        rcases hturn with hturn | hturn
        · exact absurd (hsource.trans hstate) (hturn t ht)
        · exact absurd (htarget.trans hstate) (hturn t' ht')
      · exact Or.inr ⟨r, hfirst, hsecond.tail hyz⟩

/-- A way back to an entry that no arc leads to has not left it. -/
theorem eq_of_not_entered (hnot : ∀ t ∈ arcs, t.target ≠ entry)
    (hway : ReflTransGen ((Machine.ofArcs arcs).Moves text) (entry, p) (entry, p')) : p = p' := by
  rcases hway.cases_tail with heq | ⟨x, -, hx⟩
  · exact (Prod.mk.inj heq).2.symm
  · obtain ⟨t, ht, htarget⟩ := hx.exists_target
    exact absurd htarget (hnot t ht)

/-- Along the arcs of a quantifier nothing is read. -/
theorem Quantifier.exists_arc {q : Quantifier} {v w : Nat × Nat}
    (hmoves : (Machine.ofArcs (q.arcs entry middle exit)).Moves text v w) :
    ∃ t ∈ q.arcs entry middle exit, t.source = v.1 ∧ w = (t.target, v.2) := by
  obtain ⟨t, ht, hsource, hleads⟩ := hmoves
  have hepsilon : t.inputLabel = .epsilon := by
    rw [Transition.inputLabel, (skips_of_mem_arcs ht).1]
    rfl
  rw [Machine.leads_iff, hepsilon] at hleads
  exact ⟨t, ht, hsource, hleads⟩

/-- The arcs of a quantifier leave from the entry and from the middle. -/
theorem Quantifier.source_of_mem_arcs {q : Quantifier} {t : Transition}
    (ht : t ∈ q.arcs entry middle exit) : t.source = entry ∨ t.source = middle := by
  cases q with
  | star | optional =>
    rcases List.mem_pair.1 ht with rfl | rfl
    · exact Or.inr rfl
    · exact Or.inl rfl
  | plus =>
    obtain rfl := List.mem_singleton.1 ht
    exact Or.inr rfl

/-- What lies behind a way that is inside a quantified part: some rounds, or none where there is
at most one. -/
def Quantifier.Begun (M : Nat → Nat → Prop) : Quantifier → Nat → Nat → Prop
  | optional => (· = ·)
  | _ => ReflTransGen M

/-- How far a way through a quantified part has come: inside the part after some rounds, or out
of it by a new exit. -/
inductive Underway (q : Quantifier) (M : Nat → Nat → Prop) (R : Nat × Nat → Nat × Nat → Prop)
    (entry exit p : Nat) : Nat × Nat → Prop
  | inside {r : Nat} {y : Nat × Nat} : q.Begun M p r → ReflTransGen R (entry, r) y →
      Underway q M R entry exit p y
  | out {r : Nat} : q ≠ .plus → q.Repeats M p r → Underway q M R entry exit p (exit, r)

section rounds

variable {q : Quantifier} (hentry : entry < n) (h : Drawn entry middle n n' arcs)
  (hends : q.Ends middle n' exit n'')
  (hround : ∀ p p', ReflTransGen ((Machine.ofArcs arcs).Moves text) (entry, p) (middle, p') →
    M p p')

include hentry h hends in
/-- An exit of its own is neither the entry nor a state of the part. -/
theorem Drawn.not_owned_exit (hplus : q ≠ .plus) : ¬ Owned entry n n' exit := by
  have hgrows := h.grows
  unfold Quantifier.Ends at hends
  unfold Owned
  grind

include hentry h hends hround

/-- One step more, through the part or along an arc of the quantifier. -/
theorem Underway.step (hnot : q ≠ .plus → ∀ t ∈ arcs, t.target ≠ entry) {y z : Nat × Nat}
    (hy : Underway q M ((Machine.ofArcs arcs).Moves text) entry exit p y)
    (hyz : (Machine.ofArcs arcs).Moves text y z ∨
      (Machine.ofArcs (q.arcs entry middle exit)).Moves text y z) :
    Underway q M ((Machine.ofArcs arcs).Moves text) entry exit p z := by
  cases hy with
  | inside hbegun hway =>
    rcases hyz with hyz | hyz
    · exact .inside hbegun (hway.tail hyz)
    · obtain ⟨t, ht, hsource, rfl⟩ := Quantifier.exists_arc hyz
      obtain ⟨state, position⟩ := y
      obtain rfl : t.source = state := hsource
      cases q with
      | star =>
        rcases List.mem_pair.1 ht with rfl | rfl
        · exact .inside (hbegun.tail (hround _ _ hway)) .refl
        · rw [eq_of_not_entered (hnot nofun) hway] at hbegun
          exact .out nofun hbegun
      | plus =>
        obtain rfl := List.mem_singleton.1 ht
        exact .inside (hbegun.tail (hround _ _ hway)) .refl
      | optional =>
        obtain rfl : p = _ := hbegun
        rcases List.mem_pair.1 ht with rfl | rfl
        · exact .out nofun (.single (hround _ _ hway))
        · rw [eq_of_not_entered (hnot nofun) hway]
          exact .out nofun .refl
  | out hplus _ =>
    have hexit := h.not_owned_exit hentry hends hplus
    rcases hyz with hyz | hyz
    · exact absurd (h.owned_of_moves hyz).1 hexit
    · obtain ⟨t, ht, hsource, -⟩ := Quantifier.exists_arc hyz
      have howned : Owned entry n n' t.source := by
        rcases Quantifier.source_of_mem_arcs ht with hentry | hmiddle
        · exact Or.inl hentry
        · exact hmiddle ▸ h.exit_owned
      rw [hsource] at howned
      exact absurd howned hexit

/-- A way through a quantified part is made of rounds. -/
theorem Drawn.repeats (hnot : q ≠ .plus → ∀ t ∈ arcs, t.target ≠ entry)
    (hway : ReflTransGen (fun v w => (Machine.ofArcs arcs).Moves text v w ∨
      (Machine.ofArcs (q.arcs entry middle exit)).Moves text v w) (entry, p) (exit, p')) :
    q.Repeats M p p' := by
  have hbegun : q.Begun M p p := by
    cases q with
    | star | plus => exact ReflTransGen.refl
    | optional => exact rfl
  have hall : ∀ y, ReflTransGen (fun v w => (Machine.ofArcs arcs).Moves text v w ∨
      (Machine.ofArcs (q.arcs entry middle exit)).Moves text v w) (entry, p) y →
      Underway q M ((Machine.ofArcs arcs).Moves text) entry exit p y := by
    intro y hy
    induction hy with
    | refl => exact .inside hbegun .refl
    | tail _ hyz ih => exact ih.step hentry h hends hround hnot hyz
  generalize hend : (exit, p') = y at hway
  cases hall y hway with
  | out _ hrepeats =>
    obtain rfl := (Prod.mk.inj hend).2
    exact hrepeats
  | inside hbegun hlast =>
    subst hend
    by_cases hplus : q = .plus
    · subst hplus
      obtain rfl : exit = middle := by
        unfold Quantifier.Ends at hends
        grind
      exact .tail' hbegun (hround _ _ hlast)
    · have hexit := h.not_owned_exit hentry hends hplus
      rcases hlast.cases_tail with heq | ⟨x, -, hx⟩
      · exact absurd (Or.inl (Prod.mk.inj heq).1) hexit
      · exact absurd (h.owned_of_moves hx).2 hexit

end rounds

end ways

/-! ## What passes through a separated expression -/

theorem Expr.matches_of_reach {text : List Char} (htext : text ≠ []) (e : Expr) {entry : Nat}
    {d : Draft} (hentry : entry < d.stateCount) (hseparated : e.Separated entry d) {p p' : Nat}
    (hway : ReflTransGen ((Machine.ofArcs (e.arcs entry d)).Moves text) (entry, p)
      ((e.draw entry d).1, p')) : e.Matches text p p' := by
  induction e generalizing entry d p p' with
  | empty =>
    exact ((drawing_empty entry d).leads text htext (.entry, p) (.exit, p')).1
      ((drawing_empty entry d).arcs_eq_arcs ▸ hway)
  | atom a =>
    have hleads := ((atom a).drawing hentry).leads text htext (.entry, p) (.exit, p')
    rcases hleads.1 hway with heq | ⟨-, -, hmatches⟩
    · cases heq
    · exact hmatches
  | seq e e' ih ih' =>
    have h := e.drawing hentry
    have h' := e'.drawing (e.exit_lt hentry)
    have hturn : (∀ t ∈ e.arcs entry d, t.source ≠ (e.draw entry d).1) ∨
        ∀ t ∈ e'.arcs (e.draw entry d).1 (e.draw entry d).2, t.target ≠ (e.draw entry d).1 := by
      by_cases hback : ∃ t ∈ e'.arcs (e.draw entry d).1 (e.draw entry d).2,
          t.target = (e.draw entry d).1
      · obtain ⟨t, ht, htarget⟩ := hback
        have hleft := hseparated.2.not_left (e.exit_lt hentry) ht htarget
        rw [h.arcs_eq] at hleft
        exact Or.inl fun t ht => hleft t (List.mem_append_right _ ht)
      · exact Or.inr fun t ht htarget => hback ⟨t, ht, htarget⟩
    rw [arcs_seq e e' hentry] at hway
    have hways := ReflTransGen.mono (fun v w => (Machine.moves_append (h.drawn.spares h'.drawn)
      (h.drawn.spares_before hentry h'.drawn)).1) _ _ hway
    obtain ⟨r, hfirst, hsecond⟩ := h.drawn.exists_middle hentry h'.drawn hturn hways
    exact ⟨r, ih hentry hseparated.1 hfirst, ih' (e.exit_lt hentry) hseparated.2 hsecond⟩
  | quantified q e ih =>
    obtain ⟨hseparated, -, hnot⟩ := hseparated
    have h := e.drawing hentry
    have hends := q.ends_draw entry (e.draw entry d).1 (e.draw entry d).2
    rw [arcs_quantified q e hentry] at hway
    have hways := ReflTransGen.mono (fun v w => (Machine.moves_append
      (h.spares_quantifier hentry hends) (q.spares_arcs _)).1) _ _ hway
    exact h.drawn.repeats hentry hends (fun _ _ => ih hentry hseparated) hnot hways

/-- What passes through a separated expression is what it means. -/
theorem Expr.passes_iff_matches {e : Expr} (hseparated : e.Separated 0 Draft.start)
    {text : List Char} (htext : text ≠ []) (start stop : Nat) :
    e.Passes text start stop ↔ e.Matches text start stop := by
  have hstart : 0 < Draft.start.stateCount := Nat.one_pos
  refine ⟨?_, passes_of_matches⟩
  intro hpasses
  have hway := ((e.drawing hstart).leads text htext (.entry, start) (.exit, stop)).2 hpasses
  exact e.matches_of_reach htext hstart hseparated hway

theorem means_iff {pattern : String} {e : Expr} (hspells : Spells pattern.toList e)
    (text : List Char) (start stop : Nat) :
    Means pattern text start stop ↔ e.Matches text start stop := by
  refine ⟨?_, fun h => ⟨e, hspells, h⟩⟩
  rintro ⟨e', hspells', h⟩
  rw [hspells.unique hspells']
  exact h

/-- The expression of the pattern `(ab+)*`. -/
def loopInLoop : Expr :=
  .seq (.quantified .star (.seq (.atom (.char 'a'))
    (.seq (.quantified .plus (.atom (.char 'b'))) .empty))) .empty

theorem separated_loopInLoop : Separated "(ab+)*" := by
  refine ⟨loopInLoop, ?_, by decide⟩
  rw [← parse_eq_ok_iff]
  cbv

/-- The star inside leads back to the entry of what may be left out. -/
example : ¬ loopThenB.Separated 0 Draft.start := by decide

end Pattern

namespace Automaton

open Pattern

/-- The automaton of a separated pattern finds the leftmost longest part of a text that the
pattern means, whatever the limit, and with a limit that is large enough it gives an answer. -/
theorem find_means_of_separated {pattern : String} {a : Automaton} (h : ofPattern pattern = .ok a)
    (hseparated : Separated pattern) (text : String) :
    (∀ config found, a.find text config = .ok found → ∀ r, found = r ↔
      IsLeftmostLongest (Means pattern text.toList) text.toList.length r) ∧
    ∃ limit, ∀ config, limit ≤ config.maxDepth → ∃ found, a.find text config = .ok found := by
  refine ⟨?_, ?_⟩
  · intro config found hfound r
    obtain ⟨e, hspells, hdrawn⟩ := hseparated
    have hleftmost : IsLeftmostLongest (Means pattern text.toList) text.toList.length found := by
      refine (IsLeftmostLongest.congr (fun start hlt stop => ?_) found).1
        (isLeftmostLongest_of_find_ofPattern h hfound)
      have htext : text.toList ≠ [] := List.ne_nil_of_length_pos (Nat.zero_lt_of_lt hlt)
      rw [passes_iff hspells, means_iff hspells]
      exact Expr.passes_iff_matches hdrawn htext start stop
    refine ⟨?_, fun hr => hleftmost.unique hr⟩
    rintro rfl
    exact hleftmost
  · obtain ⟨e, name, -, -, hfirst⟩ := exists_expr_of_ofPattern h
    exact ⟨_, fun config hle => exists_find_of_le h hfirst hle⟩

theorem find_means_of_separated_loopInLoop : Separated "(ab+)*" ∧
    ∃ a, ofPattern "(ab+)*" = .ok a ∧
      (∀ config found, a.find "babbab" config = .ok found → ∀ r, found = r ↔
        IsLeftmostLongest (Means "(ab+)*" "babbab".toList) "babbab".toList.length r) ∧
      ∃ limit, ∀ config, limit ≤ config.maxDepth →
        ∃ found, a.find "babbab" config = .ok found := by
  obtain ⟨e, hspells, -⟩ := separated_loopInLoop
  have h := (ofPattern_eq_ok_iff "(ab+)*" _).2 ⟨e, hspells, rfl⟩
  exact ⟨separated_loopInLoop, _, h, find_means_of_separated h separated_loopInLoop "babbab"⟩

end Automaton

end WeightedAutomata
