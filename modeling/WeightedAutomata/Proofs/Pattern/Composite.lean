-- Drawing sequences and quantified expressions. The second part of a sequence meets the first
-- one in the middle alone, and the arcs of a quantifier go between joints, so that the ways
-- through a whole are leaps through its parts.
import WeightedAutomata.Proofs.Pattern.Drawing

namespace WeightedAutomata

namespace Pattern

open Relation

variable {text : List Char} {entry middle exit : Nat}

@[simp] theorem state_outer (i : Port) :
    i.outer.state entry middle exit = i.state entry exit := by
  cases i <;> rfl

@[simp] theorem state_first (i : Port) :
    i.first.state entry middle exit = i.state entry middle := by
  cases i <;> rfl

@[simp] theorem state_second (i : Port) :
    i.second.state entry middle exit = i.state middle exit := by
  cases i <;> rfl

theorem Drawn.owned_of_moves {n n' : Nat} {arcs : List Transition}
    (h : Drawn entry exit n n' arcs) {v w : Nat × Nat}
    (hmoves : (Machine.ofArcs arcs).Moves text v w) :
    Owned entry n n' v.1 ∧ Owned entry n n' w.1 := by
  obtain ⟨t, ht, hsource⟩ := hmoves.exists_source
  obtain ⟨u, hu, htarget⟩ := hmoves.exists_target
  exact ⟨hsource ▸ h.source t ht, htarget ▸ h.target u hu⟩

/-- A state that is not owned is apart, if no other joint is that state. -/
theorem Drawn.apart {n n' : Nat} {arcs : List Transition} {place : Joint → Nat} {i : Joint}
    (h : Drawn entry exit n n' arcs) (hi : ¬ Owned entry n n' (place i))
    (hown : ∀ k, place k = place i → k = i) :
    Apart place ((Machine.ofArcs arcs).Moves text) i where
  not_left _ _ hmoves := hi (h.owned_of_moves hmoves).1
  not_reached _ _ hmoves := hi (h.owned_of_moves hmoves).2
  own := hown

/-- Where the exit is the entry, there are ways from port to port that read nothing. -/
theorem Drawing.leads_of_exit_eq {e : Expr} {before : Draft} {result : Nat × Draft}
    {arcs : List Transition} (h : Drawing e entry before result arcs) (htext : text ≠ [])
    (hexit : result.1 = entry) (i k : Port) (p : Nat) : e.Leads text (i, p) (k, p) := by
  rw [← h.leads text htext, hexit]
  have hstate : i.state entry entry = k.state entry entry := by cases i <;> cases k <;> rfl
  rw [hstate]

/-- The ways through two sets of arcs are leaps, if leaps cover their steps and lead along them. -/
theorem leaps_iff (middle : Nat) {arcs arcs' : List Transition}
    {L : Joint × Nat → Joint × Nat → Prop}
    (hmoves : ∀ v w, (Machine.ofArcs (arcs ++ arcs')).Moves text v w ↔
      (Machine.ofArcs arcs).Moves text v w ∨ (Machine.ofArcs arcs').Moves text v w)
    (hcovers : Covers (Joint.state entry middle exit) L fun v w =>
      (Machine.ofArcs arcs).Moves text v w ∨ (Machine.ofArcs arcs').Moves text v w)
    (hsteps : ∀ v w, L v w → ReflTransGen
      (fun v w => (Machine.ofArcs arcs).Moves text v w ∨ (Machine.ofArcs arcs').Moves text v w)
      (v.1.state entry middle exit, v.2) (w.1.state entry middle exit, w.2)) (v w : Port × Nat) :
    ReflTransGen ((Machine.ofArcs (arcs ++ arcs')).Moves text) (v.1.state entry exit, v.2)
      (w.1.state entry exit, w.2) ↔ Leaps L v w := by
  have hor : (Machine.ofArcs (arcs ++ arcs')).Moves text = fun v w =>
      (Machine.ofArcs arcs).Moves text v w ∨ (Machine.ofArcs arcs').Moves text v w :=
    funext fun v => funext fun w => propext (hmoves v w)
  rw [hor]
  refine ⟨?_, ?_⟩
  · intro h
    apply hcovers
    simpa using h
  · intro h
    simpa using reflTransGen_of_leaps hsteps h

/-! ## Nothing -/

theorem drawing_empty (entry : Nat) (d : Draft) : Drawing .empty entry d (entry, d) [] where
  arcs_eq := by simp
  drawn := ⟨Nat.le_refl _, Or.inl rfl, by simp, by simp, by simp, by simp⟩
  leads := by
    rintro text - ⟨i, p⟩ ⟨k, q⟩
    have hentry : ∀ i : Port, i.state entry entry = entry := fun i => by cases i <;> rfl
    simp only [hentry, Expr.Leads]
    refine ⟨?_, ?_⟩
    · intro h
      rcases h.cases_head with heq | ⟨y, ⟨t, ht, -⟩, -⟩
      · exact (Prod.mk.inj heq).2
      · cases ht
    · rintro rfl
      exact .refl

/-! ## Sequences -/

section seq

variable {e e' : Expr} {d : Draft} {r r' : Nat × Draft} {arcs arcs' : List Transition}

theorem Drawn.seq {n n' n'' : Nat} (hentry : entry < n) (h : Drawn entry middle n n' arcs)
    (h' : Drawn middle exit n' n'' arcs') : Drawn entry exit n n'' (arcs ++ arcs') := by
  have hle := h.grows
  have hle' := h'.grows
  have hexit := h'.exit_owned
  have howned : ∀ state, Owned entry n n' state → Owned entry n n'' state := by
    unfold Owned
    omega
  have howned' : ∀ state, Owned middle n' n'' state → Owned entry n n'' state := by
    have := h.exit_owned
    unfold Owned at *
    omega
  refine ⟨Nat.le_trans hle hle', howned' _ hexit, ?_, ?_, ?_, ?_⟩
  · rw [List.forall_mem_append]
    exact ⟨fun t ht => howned _ (h.source t ht), fun t ht => howned' _ (h'.source t ht)⟩
  · rw [List.forall_mem_append]
    exact ⟨fun t ht => howned _ (h.target t ht), fun t ht => howned' _ (h'.target t ht)⟩
  · rw [List.forall_mem_append]
    refine ⟨fun t ht hlabel => ?_, fun t ht hlabel => ?_⟩
    · have := h.marker t ht hlabel
      unfold Owned at hexit
      omega
    · have := h'.marker t ht hlabel
      omega
  · rw [List.forall_mem_append]
    exact ⟨h.admitted, h'.admitted⟩

theorem Drawn.spares {n n' n'' : Nat} (h : Drawn entry middle n n' arcs)
    (h' : Drawn middle exit n' n'' arcs') : Machine.Spares arcs arcs' := by
  intro t ht hlabel u hu
  have := h.marker t ht hlabel
  have := h'.source u hu
  unfold Owned at this
  omega

theorem Drawn.spares_before {n n' n'' : Nat} (hentry : entry < n)
    (h : Drawn entry middle n n' arcs) (h' : Drawn middle exit n' n'' arcs') :
    Machine.Spares arcs' arcs := by
  intro t ht hlabel u hu
  have := h.grows
  have := h'.marker t ht hlabel
  have := h.source u hu
  unfold Owned at this
  omega

/-- A leap through one of the two parts of a sequence. -/
abbrev SeqLeap (text : List Char) (e e' : Expr) (v w : Joint × Nat) : Prop :=
  Leap Port.first (e.Leads text) v w ∨ Leap Port.second (e'.Leads text) v w

theorem Drawing.covers_first (hentry : entry < d.stateCount) (h : Drawing e entry d r arcs)
    (h' : Drawing e' r.1 r.2 r' arcs') (htext : text ≠ []) :
    Covers (Joint.state entry r.1 r'.1) (SeqLeap text e e') ((Machine.ofArcs arcs).Moves text) := by
  have hmiddle := h.drawn.exit_owned
  have hexit := h'.drawn.exit_owned
  have hgrows := h.drawn.grows
  apply covers_of_part Port.first (e.Leads text)
  · intro v w hvw
    rw [← h.leads text htext]
    simpa using hvw
  · exact fun v w hvw => Or.inl (leap_of hvw)
  · intro i
    cases i with
    | entry => exact Or.inl ⟨.entry, Same.refl _⟩
    | middle => exact Or.inl ⟨.exit, Same.refl _⟩
    | exit =>
      by_cases hsame : r'.1 = r.1
      · have hleads := h'.leads_of_exit_eq htext hsame
        exact Or.inl ⟨.exit, hsame, fun p => .single (Or.inr (leap_of (hleads .exit .entry p))),
          fun p => .single (Or.inr (leap_of (hleads .entry .exit p)))⟩
      · refine Or.inr (h.drawn.apart ?_ fun k => ?_)
        · simp only [Joint.state, Owned] at *
          omega
        · simp only [Owned] at hmiddle hexit
          cases k with
          | entry => simp only [Joint.state]; omega
          | middle => exact fun hk => absurd hk.symm hsame
          | exit => exact fun _ => rfl

theorem Drawing.covers_second (hentry : entry < d.stateCount) (h : Drawing e entry d r arcs)
    (h' : Drawing e' r.1 r.2 r' arcs') (htext : text ≠ []) :
    Covers (Joint.state entry r.1 r'.1) (SeqLeap text e e')
      ((Machine.ofArcs arcs').Moves text) := by
  have hmiddle := h.drawn.exit_owned
  have hexit := h'.drawn.exit_owned
  have hgrows := h.drawn.grows
  apply covers_of_part Port.second (e'.Leads text)
  · intro v w hvw
    rw [← h'.leads text htext]
    simpa using hvw
  · exact fun v w hvw => Or.inr (leap_of hvw)
  · intro i
    cases i with
    | middle => exact Or.inl ⟨.entry, Same.refl _⟩
    | exit => exact Or.inl ⟨.exit, Same.refl _⟩
    | entry =>
      by_cases hsame : r.1 = entry
      · have hleads := h.leads_of_exit_eq htext hsame
        exact Or.inl ⟨.entry, hsame.symm,
          fun p => .single (Or.inl (leap_of (hleads .entry .exit p))),
          fun p => .single (Or.inl (leap_of (hleads .exit .entry p)))⟩
      · refine Or.inr (h'.drawn.apart ?_ fun k => ?_)
        · simp only [Joint.state, Owned] at *
          omega
        · simp only [Owned] at hmiddle hexit
          cases k with
          | entry => exact fun _ => rfl
          | middle => exact fun hk => absurd hk hsame
          | exit => simp only [Joint.state]; omega

/-- A state of both parts of a sequence is its entry or the middle. -/
theorem Drawn.exists_joint {n n' n'' state : Nat} (h : Drawn entry middle n n' arcs)
    (hentry : entry < n) (hfirst : Owned entry n n' state) (hsecond : Owned middle n' n'' state) :
    ∃ j : Joint, state = j.state entry middle exit := by
  have hgrows := h.grows
  rcases hsecond with rfl | hsecond
  · exact ⟨.middle, rfl⟩
  · rcases hfirst with rfl | hfirst
    · exact ⟨.entry, rfl⟩
    · omega

theorem Drawing.seq (hentry : entry < d.stateCount) (h : Drawing e entry d r arcs)
    (h' : Drawing e' r.1 r.2 r' arcs') : Drawing (.seq e e') entry d r' (arcs ++ arcs') where
  arcs_eq := by rw [h'.arcs_eq, h.arcs_eq, List.append_assoc]
  drawn := h.drawn.seq hentry h'.drawn
  leads := by
    intro text htext
    refine leaps_iff r.1 ?_ (Covers.or (h.covers_first hentry h' htext)
      (h.covers_second hentry h' htext) ?_ ?_) ?_
    · exact fun v w => Machine.moves_append (h.drawn.spares h'.drawn)
        (h.drawn.spares_before hentry h'.drawn)
    · intro x y z hxy hyz
      exact h.drawn.exists_joint hentry (h.drawn.owned_of_moves hxy).2
        (h'.drawn.owned_of_moves hyz).1
    · intro x y z hxy hyz
      exact h.drawn.exists_joint hentry (h.drawn.owned_of_moves hyz).1
        (h'.drawn.owned_of_moves hxy).2
    · rintro _ _ (⟨v, w, hvw, rfl, rfl⟩ | ⟨v, w, hvw, rfl, rfl⟩)
      · have hway := (h.leads text htext v w).2 hvw
        simpa using ReflTransGen.mono (fun _ _ hmoves => Or.inl hmoves) _ _ hway
      · have hway := (h'.leads text htext v w).2 hvw
        simpa using ReflTransGen.mono (fun _ _ hmoves => Or.inr hmoves) _ _ hway

end seq

/-! ## Quantifiers -/

/-- The arcs of a quantifier between the joints. -/
def Quantifier.arcs (entry middle exit : Nat) : Quantifier → List Transition
  | star => [{ source := middle, target := entry, input := some .epsilon },
      { source := entry, target := exit, input := some .epsilon }]
  | plus => [{ source := middle, target := entry, input := some .epsilon }]
  | optional => [{ source := middle, target := exit, input := some .epsilon },
      { source := entry, target := exit, input := some .epsilon }]

/-- A quantifier has a new exit, except that `plus` keeps the exit of its part. -/
def Quantifier.Ends (q : Quantifier) (middle n exit n' : Nat) : Prop :=
  q = .plus ∧ exit = middle ∧ n' = n ∨ q ≠ .plus ∧ exit = n ∧ n' = n + 1

section quantified

variable {q : Quantifier} {e : Expr} {d : Draft} {r : Nat × Draft} {arcs : List Transition}

theorem Quantifier.ends_draw (q : Quantifier) (entry middle : Nat) (d : Draft) :
    q.Ends middle d.stateCount (q.draw entry middle d).1 (q.draw entry middle d).2.stateCount := by
  cases q <;> simp [Ends, draw, Draft.branch, Draft.state, Draft.arc]

theorem Quantifier.toList_arcs_draw (q : Quantifier) (entry middle : Nat) (d : Draft) :
    (q.draw entry middle d).2.arcs.toList =
      d.arcs.toList ++ q.arcs entry middle (q.draw entry middle d).1 := by
  cases q <;> simp [arcs, draw, Draft.branch, Draft.state, Draft.arc]

theorem Quantifier.skips_of_mem_arcs {t : Transition} (ht : t ∈ q.arcs entry middle exit) :
    t.input = some .epsilon ∧ Schema.acceptor.admits t = true ∧ ∃ i k, q.Skips i k ∧
      t.source = i.state entry middle exit ∧ t.target = k.state entry middle exit := by
  cases q with
  | star =>
    rcases List.mem_pair.1 ht with rfl | rfl
    · exact ⟨rfl, rfl, _, _, .starBack, rfl, rfl⟩
    · exact ⟨rfl, rfl, _, _, .starAround, rfl, rfl⟩
  | plus =>
    obtain rfl := List.mem_singleton.1 ht
    exact ⟨rfl, rfl, _, _, .plusBack, rfl, rfl⟩
  | optional =>
    rcases List.mem_pair.1 ht with rfl | rfl
    · exact ⟨rfl, rfl, _, _, .optionalOut, rfl, rfl⟩
    · exact ⟨rfl, rfl, _, _, .optionalAround, rfl, rfl⟩

/-- The arcs of a quantifier lead from joint to joint and read nothing. -/
theorem Quantifier.skips_of_moves {v w : Nat × Nat}
    (h : (Machine.ofArcs (q.arcs entry middle exit)).Moves text v w) :
    ∃ i k, q.Skips i k ∧ v = (i.state entry middle exit, v.2) ∧
      w = (k.state entry middle exit, v.2) := by
  obtain ⟨t, ht, hsource, hleads⟩ := h
  obtain ⟨hlabel, -, i, k, hskips, hi, hk⟩ := skips_of_mem_arcs ht
  have hepsilon : t.inputLabel = .epsilon := by rw [Transition.inputLabel, hlabel]; rfl
  rw [Machine.leads_iff, hepsilon] at hleads
  exact ⟨i, k, hskips, by rw [← hi, hsource], hk ▸ hleads⟩

/-- Where a quantifier leads there is an arc, unless the two joints are the exit of `plus`. -/
theorem Quantifier.reflTransGen_of_skips {i k : Joint} (hskips : q.Skips i k)
    (hplus : q = .plus → exit = middle) (p : Nat) :
    ReflTransGen ((Machine.ofArcs (q.arcs entry middle exit)).Moves text)
      (i.state entry middle exit, p) (k.state entry middle exit, p) := by
  have harc : ∀ t ∈ q.arcs entry middle exit,
      (Machine.ofArcs (q.arcs entry middle exit)).Moves text (t.source, p) (t.target, p) := by
    intro t ht
    have hepsilon : t.inputLabel = .epsilon := by
      rw [Transition.inputLabel, (skips_of_mem_arcs ht).1]; rfl
    exact ⟨t, ht, rfl, .epsilon p hepsilon⟩
  cases hskips with
  | starBack => exact .single (harc _ List.mem_cons_self)
  | starAround => exact .single (harc _ (List.mem_cons_of_mem _ List.mem_cons_self))
  | plusBack => exact .single (harc _ List.mem_cons_self)
  | plusOut => rw [hplus rfl]; exact .refl
  | plusIn => rw [hplus rfl]; exact .refl
  | optionalOut => exact .single (harc _ List.mem_cons_self)
  | optionalAround => exact .single (harc _ (List.mem_cons_of_mem _ List.mem_cons_self))

theorem Drawn.quantified {n n' n'' : Nat} (hentry : entry < n) (h : Drawn entry middle n n' arcs)
    (hends : q.Ends middle n' exit n'') :
    Drawn entry exit n n'' (arcs ++ q.arcs entry middle exit) := by
  have hle := h.grows
  have hmiddle := h.exit_owned
  have hle' : n' ≤ n'' := by
    unfold Quantifier.Ends at hends
    omega
  have howned : ∀ state, Owned entry n n' state → Owned entry n n'' state := by
    unfold Owned
    omega
  have hexit : Owned entry n n'' exit := by
    unfold Quantifier.Ends at hends
    unfold Owned at *
    omega
  have hjoint : ∀ i : Joint, Owned entry n n'' (i.state entry middle exit) := by
    intro i
    cases i with
    | entry => exact Or.inl rfl
    | middle => exact howned _ hmiddle
    | exit => exact hexit
  refine ⟨Nat.le_trans hle hle', hexit, ?_, ?_, ?_, ?_⟩
  · rw [List.forall_mem_append]
    refine ⟨fun t ht => howned _ (h.source t ht), fun t ht => ?_⟩
    obtain ⟨-, -, i, -, -, hi, -⟩ := Quantifier.skips_of_mem_arcs ht
    exact hi ▸ hjoint i
  · rw [List.forall_mem_append]
    refine ⟨fun t ht => howned _ (h.target t ht), fun t ht => ?_⟩
    obtain ⟨-, -, -, k, -, -, hk⟩ := Quantifier.skips_of_mem_arcs ht
    exact hk ▸ hjoint k
  · rw [List.forall_mem_append]
    refine ⟨fun t ht hlabel => ?_, fun t ht hlabel => ?_⟩
    · have := h.marker t ht hlabel
      unfold Quantifier.Ends at hends
      omega
    · rw [Transition.inputLabel, (Quantifier.skips_of_mem_arcs ht).1] at hlabel
      cases hlabel
  · rw [List.forall_mem_append]
    exact ⟨h.admitted, fun t ht => (Quantifier.skips_of_mem_arcs ht).2.1⟩

/-- A leap through a quantified part, or one of the quantifier. -/
abbrev QuantifiedLeap (text : List Char) (q : Quantifier) (e : Expr) (v w : Joint × Nat) : Prop :=
  Leap Port.first (e.Leads text) v w ∨ q.Leap v w

theorem Drawing.covers_part (hentry : entry < d.stateCount) (h : Drawing e entry d r arcs)
    {n : Nat} (hends : q.Ends r.1 r.2.stateCount exit n) (htext : text ≠ []) :
    Covers (Joint.state entry r.1 exit) (QuantifiedLeap text q e)
      ((Machine.ofArcs arcs).Moves text) := by
  have hmiddle := h.drawn.exit_owned
  have hgrows := h.drawn.grows
  apply covers_of_part Port.first (e.Leads text)
  · intro v w hvw
    rw [← h.leads text htext]
    simpa using hvw
  · exact fun v w hvw => Or.inl (leap_of hvw)
  · intro i
    cases i with
    | entry => exact Or.inl ⟨.entry, Same.refl _⟩
    | middle => exact Or.inl ⟨.exit, Same.refl _⟩
    | exit =>
      rcases hends with ⟨rfl, hexit, -⟩ | ⟨-, hexit, -⟩
      · exact Or.inl ⟨.exit, hexit, fun p => .single (Or.inr ⟨.plusIn, rfl⟩),
          fun p => .single (Or.inr ⟨.plusOut, rfl⟩)⟩
      · refine Or.inr (h.drawn.apart ?_ fun k => ?_)
        · simp only [Joint.state, Owned] at *
          omega
        · simp only [Owned] at hmiddle
          cases k with
          | entry => simp only [Joint.state]; omega
          | middle => simp only [Joint.state]; omega
          | exit => exact fun _ => rfl

theorem Drawing.spares_quantifier (hentry : entry < d.stateCount) (h : Drawing e entry d r arcs)
    {n : Nat} (hends : q.Ends r.1 r.2.stateCount exit n) :
    Machine.Spares arcs (q.arcs entry r.1 exit) := by
  intro t ht hlabel u hu
  have hmarker := h.drawn.marker t ht hlabel
  obtain ⟨-, -, i, -, -, hi, -⟩ := Quantifier.skips_of_mem_arcs hu
  rw [hi]
  unfold Quantifier.Ends at hends
  cases i with
  | entry => simp only [Joint.state]; omega
  | middle => simp only [Joint.state]; omega
  | exit => simp only [Joint.state]; omega

/-- The arcs of a quantifier go to no marker. -/
theorem Quantifier.spares_arcs (q : Quantifier) (arcs : List Transition) :
    Machine.Spares (q.arcs entry middle exit) arcs := by
  intro t ht hlabel
  rw [Transition.inputLabel, (skips_of_mem_arcs ht).1] at hlabel
  cases hlabel

theorem Drawing.quantified (hentry : entry < d.stateCount) (h : Drawing e entry d r arcs) :
    Drawing (.quantified q e) entry d (q.draw entry r.1 r.2)
      (arcs ++ q.arcs entry r.1 (q.draw entry r.1 r.2).1) where
  arcs_eq := by rw [q.toList_arcs_draw, h.arcs_eq, List.append_assoc]
  drawn := h.drawn.quantified hentry (q.ends_draw entry r.1 r.2)
  leads := by
    intro text htext
    have hends := q.ends_draw entry r.1 r.2
    have hpart := h.covers_part hentry hends htext
    have hplus : q = .plus → (q.draw entry r.1 r.2).1 = r.1 := by
      rintro rfl
      rfl
    refine leaps_iff r.1 ?_ (Covers.or hpart (covers_of_steps ?_ ?_) ?_ ?_) ?_
    · exact fun v w =>
        Machine.moves_append (h.spares_quantifier hentry hends) (q.spares_arcs arcs)
    · intro i k p hik
      exact hpart i k p p (hik ▸ .refl)
    · intro x y hxy
      obtain ⟨i, k, hskips, hx, hy⟩ := Quantifier.skips_of_moves hxy
      exact ⟨i, k, x.2, hx, hy, Or.inr ⟨hskips, rfl⟩⟩
    · intro x y z _ hyz
      obtain ⟨i, -, -, hy, -⟩ := Quantifier.skips_of_moves hyz
      exact ⟨i, congrArg Prod.fst hy⟩
    · intro x y z hxy _
      obtain ⟨-, k, -, -, hy⟩ := Quantifier.skips_of_moves hxy
      exact ⟨k, congrArg Prod.fst hy⟩
    · rintro _ _ (⟨v, w, hvw, rfl, rfl⟩ | ⟨hskips, hposition⟩)
      · have hway := (h.leads text htext v w).2 hvw
        simpa using ReflTransGen.mono (fun _ _ hmoves => Or.inl hmoves) _ _ hway
      · rw [hposition]
        exact ReflTransGen.mono (fun _ _ hmoves => Or.inr hmoves) _ _
          (Quantifier.reflTransGen_of_skips hskips hplus _)

end quantified

/-! ## All expressions -/

theorem Atom.exists_drawing (a : Atom) {entry : Nat} {d : Draft} (hentry : entry < d.stateCount) :
    ∃ arcs, Drawing (.atom a) entry d (a.draw entry d) arcs := by
  cases a with
  | char c => exact ⟨_, drawing_branch hentry nofun (reads_char c)⟩
  | any => exact ⟨_, drawing_branch hentry nofun reads_any⟩
  | oneOf members => exact ⟨_, drawing_class hentry⟩
  | textStart => exact ⟨_, drawing_branch hentry nofun reads_textStart⟩
  | textEnd => exact ⟨_, drawing_branch hentry nofun reads_textEnd⟩

/-- The exit is a state of the draft. -/
theorem Drawing.exit_lt {e : Expr} {entry : Nat} {d : Draft} {r : Nat × Draft}
    {arcs : List Transition} (hentry : entry < d.stateCount) (h : Drawing e entry d r arcs) :
    r.1 < r.2.stateCount := by
  have hgrows := h.drawn.grows
  have hexit := h.drawn.exit_owned
  unfold Owned at hexit
  omega

theorem Expr.exists_drawing (e : Expr) {entry : Nat} {d : Draft} (hentry : entry < d.stateCount) :
    ∃ arcs, Drawing e entry d (e.draw entry d) arcs := by
  induction e generalizing entry d with
  | empty => exact ⟨[], drawing_empty entry d⟩
  | atom a => exact a.exists_drawing hentry
  | seq e e' ih ih' =>
    obtain ⟨arcs, h⟩ := ih hentry
    obtain ⟨arcs', h'⟩ := ih' (h.exit_lt hentry)
    exact ⟨arcs ++ arcs', h.seq hentry h'⟩
  | quantified q e ih =>
    obtain ⟨arcs, h⟩ := ih hentry
    exact ⟨_, h.quantified hentry⟩

theorem Expr.exit_lt (e : Expr) {entry : Nat} {d : Draft} (hentry : entry < d.stateCount) :
    (e.draw entry d).1 < (e.draw entry d).2.stateCount := by
  obtain ⟨arcs, h⟩ := e.exists_drawing hentry
  exact h.exit_lt hentry

theorem Expr.stateCount_le_draw (e : Expr) {entry : Nat} {d : Draft}
    (hentry : entry < d.stateCount) : d.stateCount ≤ (e.draw entry d).2.stateCount := by
  obtain ⟨arcs, h⟩ := e.exists_drawing hentry
  exact h.drawn.grows

end Pattern

end WeightedAutomata
