-- What drawing an expression adds to a draft. The arcs go between the entry and new states, the
-- marker of a negated class is a new state that nothing else touches, and the ways through the
-- arcs from port to port are those through the expression.
import WeightedAutomata.Proofs.Moves
import WeightedAutomata.Proofs.Pattern.Gluing

namespace WeightedAutomata

open Relation

namespace Machine

/-! ## Arcs alone -/

/-- Arcs alone, as a machine without final states. -/
def ofArcs (arcs : List Transition) : Machine := ⟨"", [], arcs⟩

theorem not_isFinal_ofArcs (arcs : List Transition) (state : Nat) :
    ¬ (ofArcs arcs).IsFinal state := by
  intro h
  rcases h with ⟨flags, hflags, -⟩
  cases hflags

variable {m m' : Machine} {text : List Char} {t : Transition} {p : Nat} {v w : Nat × Nat}

theorem Outside.congr {marker target : Nat} {c : Char}
    (hfinal : m.IsFinal marker ↔ m'.IsFinal marker)
    (hleaving : m.leaving marker = m'.leaving marker) :
    m.Outside marker c target ↔ m'.Outside marker c target := by
  refine ⟨?_, ?_⟩
  · intro h
    rcases h with ⟨hnot, hunlisted, hlast⟩
    rw [hfinal] at hnot
    rw [hleaving] at hunlisted hlast
    exact ⟨hnot, hunlisted, hlast⟩
  · intro h
    rcases h with ⟨hnot, hunlisted, hlast⟩
    rw [← hfinal] at hnot
    rw [← hleaving] at hunlisted hlast
    exact ⟨hnot, hunlisted, hlast⟩

/-- Where a transition leads depends on the machine only at the marker of a negated class. -/
theorem Leads.congr (hfinal : t.inputLabel = .notInSet → (m.IsFinal t.target ↔ m'.IsFinal t.target))
    (hleaving : t.inputLabel = .notInSet → m.leaving t.target = m'.leaving t.target) :
    m.Leads text t p w ↔ m'.Leads text t p w := by
  rw [leads_iff, leads_iff]
  split
  · rfl
  · rfl
  · rfl
  · rfl
  · rfl
  · rename_i hlabel
    simp only [Outside.congr (hfinal hlabel) (hleaving hlabel)]

theorem leaving_append {arcs arcs' : List Transition} {state : Nat}
    (h : ∀ u ∈ arcs', u.source ≠ state) :
    (ofArcs (arcs ++ arcs')).leaving state = (ofArcs arcs).leaving state := by
  have hnone : arcs'.filter (fun u => decide (u.source = state)) = [] := by
    rw [List.filter_eq_nil_iff]
    intro u hu
    simpa using h u hu
  simp only [leaving, ofArcs, List.filter_append, hnone, List.append_nil]

theorem leaving_append_right {arcs arcs' : List Transition} {state : Nat}
    (h : ∀ u ∈ arcs, u.source ≠ state) :
    (ofArcs (arcs ++ arcs')).leaving state = (ofArcs arcs').leaving state := by
  have hnone : arcs.filter (fun u => decide (u.source = state)) = [] := by
    rw [List.filter_eq_nil_iff]
    intro u hu
    simpa using h u hu
  simp only [leaving, ofArcs, List.filter_append, hnone, List.nil_append]

/-- No arc of `arcs'` leaves the marker of a negated class of `arcs`. -/
def Spares (arcs arcs' : List Transition) : Prop :=
  ∀ t ∈ arcs, t.inputLabel = .notInSet → ∀ u ∈ arcs', u.source ≠ t.target

/-- Arcs that leave the markers of each other alone lead where each of them does. -/
theorem moves_append {arcs arcs' : List Transition} (h : Spares arcs arcs')
    (h' : Spares arcs' arcs) : (ofArcs (arcs ++ arcs')).Moves text v w ↔
      (ofArcs arcs).Moves text v w ∨ (ofArcs arcs').Moves text v w := by
  have hfirst : ∀ t ∈ arcs, ((ofArcs (arcs ++ arcs')).Leads text t v.2 w ↔
      (ofArcs arcs).Leads text t v.2 w) := fun t ht =>
    Leads.congr (fun _ => iff_of_false (not_isFinal_ofArcs _ _) (not_isFinal_ofArcs _ _))
      fun hlabel => leaving_append (h t ht hlabel)
  have hsecond : ∀ t ∈ arcs', ((ofArcs (arcs ++ arcs')).Leads text t v.2 w ↔
      (ofArcs arcs').Leads text t v.2 w) := fun t ht =>
    Leads.congr (fun _ => iff_of_false (not_isFinal_ofArcs _ _) (not_isFinal_ofArcs _ _))
      fun hlabel => leaving_append_right (h' t ht hlabel)
  refine ⟨?_, ?_⟩
  · intro h
    rcases h with ⟨t, ht, hsource, hleads⟩
    rcases List.mem_append.1 ht with ht | ht
    · exact Or.inl ⟨t, ht, hsource, (hfirst t ht).1 hleads⟩
    · exact Or.inr ⟨t, ht, hsource, (hsecond t ht).1 hleads⟩
  · rintro (⟨t, ht, hsource, hleads⟩ | ⟨t, ht, hsource, hleads⟩)
    · exact ⟨t, List.mem_append_left _ ht, hsource, (hfirst t ht).2 hleads⟩
    · exact ⟨t, List.mem_append_right _ ht, hsource, (hsecond t ht).2 hleads⟩

theorem moves_singleton : (ofArcs [t]).Moves text v w ↔
    t.source = v.1 ∧ (ofArcs [t]).Leads text t v.2 w := by
  simp [Moves, ofArcs]

theorem Moves.exists_source {arcs : List Transition} (h : (ofArcs arcs).Moves text v w) :
    ∃ t ∈ arcs, t.source = v.1 := by
  obtain ⟨t, ht, hsource, -⟩ := h
  exact ⟨t, ht, hsource⟩

theorem Moves.exists_target {arcs : List Transition} (h : (ofArcs arcs).Moves text v w) :
    ∃ t ∈ arcs, t.target = w.1 := by
  obtain ⟨state, p⟩ := v
  obtain ⟨t, ht, -, hleads⟩ := h
  cases hleads with
  | outside _ c target _ _ hout =>
    obtain ⟨u, hu, htarget⟩ := hout.last
    exact ⟨u, (List.mem_filter.1 (List.mem_of_getLast? hu)).1, htarget⟩
  | _ => exact ⟨t, ht, rfl⟩

end Machine

namespace Pattern

/-! ## Where arcs are drawn -/

/-- The entry of a part or one of its own states, which are those from `n` up to `n'`. -/
def Owned (entry n n' state : Nat) : Prop := state = entry ∨ n ≤ state ∧ state < n'

/-- Arcs of a part from an entry to an exit, with states from `n` up to `n'` of their own. -/
structure Drawn (entry exit n n' : Nat) (arcs : List Transition) : Prop where
  grows : n ≤ n'
  exit_owned : Owned entry n n' exit
  source : ∀ t ∈ arcs, Owned entry n n' t.source
  target : ∀ t ∈ arcs, Owned entry n n' t.target
  marker : ∀ t ∈ arcs, t.inputLabel = .notInSet → n ≤ t.target ∧ t.target < n' ∧ t.target ≠ exit
  admitted : ∀ t ∈ arcs, Schema.acceptor.admits t = true

/-- What drawing an expression from `entry` leaves behind: new arcs behind the old ones, between
states of their own, and through them the ways through the expression. -/
structure Drawing (e : Expr) (entry : Nat) (before : Draft) (result : Nat × Draft)
    (arcs : List Transition) : Prop where
  arcs_eq : result.2.arcs.toList = before.arcs.toList ++ arcs
  drawn : Drawn entry result.1 before.stateCount result.2.stateCount arcs
  leads : ∀ text ≠ [], ∀ v w : Port × Nat,
    ReflTransGen ((Machine.ofArcs arcs).Moves text) (v.1.state entry result.1, v.2)
      (w.1.state entry result.1, w.2) ↔ e.Leads text v w

theorem Port.state_injective {entry exit : Nat} (h : entry ≠ exit) {i j : Port}
    (hij : i.state entry exit = j.state entry exit) : i = j := by
  cases i <;> cases j <;> simp_all [Port.state]

/-! ## Atoms -/

/-- If all steps from the entry of an atom read it up to the exit, and none goes on there, then
ways through the atom are such steps. -/
theorem leads_atom {a : Atom} {text : List Char} {entry exit : Nat}
    {R : Nat × Nat → Nat × Nat → Prop} (hne : entry ≠ exit)
    (hentry : ∀ p w, R (entry, p) w ↔ ∃ q, w = (exit, q) ∧ a.Matches text p q)
    (hexit : ∀ p w, ¬ R (exit, p) w) (v w : Port × Nat) :
    ReflTransGen R (v.1.state entry exit, v.2) (w.1.state entry exit, w.2) ↔
      (Expr.atom a).Leads text v w := by
  obtain ⟨i, p⟩ := v
  obtain ⟨k, q⟩ := w
  refine ⟨?_, ?_⟩
  · intro h
    rcases h.cases_head with heq | ⟨y, hy, hrest⟩
    · simp only [Prod.mk.injEq] at heq
      rw [Port.state_injective hne heq.1, heq.2]
      exact Or.inl rfl
    · cases i with
      | exit => exact absurd hy (hexit _ _)
      | entry =>
        obtain ⟨r, rfl, hmatches⟩ := (hentry p y).1 hy
        rcases hrest.cases_head with heq | ⟨z, hz, -⟩
        · simp only [Prod.mk.injEq] at heq
          have hk : Port.exit = k := Port.state_injective hne heq.1
          exact Or.inr ⟨rfl, hk.symm, heq.2 ▸ hmatches⟩
        · exact absurd hz (hexit _ _)
  · rintro (heq | ⟨hi, hk, hmatches⟩)
    · rw [heq]
    · dsimp only at hi hk hmatches
      rw [hi, hk]
      exact .single ((hentry p _).2 ⟨q, rfl, hmatches⟩)

/-- Transitions with a label lead to their target where an atom can be read. -/
def Reads (label : Label) (a : Atom) : Prop :=
  ∀ text ≠ [], ∀ (m : Machine) (t : Transition) (p : Nat) (w : Nat × Nat), t.inputLabel = label →
    (m.Leads text t p w ↔ ∃ q, w = (t.target, q) ∧ a.Matches text p q)

theorem reads_char (c : Char) : Reads (.ofChar c) (.char c) := by
  intro text _ m t p w hlabel
  rw [Machine.leads_iff, hlabel]
  simp only [Label.ofChar, Char.toNat_inj, Atom.Matches]
  refine ⟨?_, ?_⟩
  · intro h
    rcases h with ⟨c, hc, rfl, rfl⟩
    exact ⟨p + 1, rfl, hc, rfl⟩
  · intro h
    rcases h with ⟨q, rfl, hc, rfl⟩
    exact ⟨c, hc, rfl, rfl⟩

theorem reads_any : Reads .anyChar .any := by
  intro text _ m t p w hlabel
  rw [Machine.leads_iff, hlabel]
  refine ⟨?_, ?_⟩
  · intro h
    rcases h with ⟨hlt, rfl⟩
    exact ⟨p + 1, rfl, hlt, rfl⟩
  · intro h
    rcases h with ⟨q, rfl, hlt, rfl⟩
    exact ⟨hlt, rfl⟩

/-- The start anchor leads nowhere in a text without characters. -/
theorem reads_textStart : Reads .startAnchor .textStart := by
  intro text htext m t p w hlabel
  rw [Machine.leads_iff, hlabel]
  refine ⟨?_, ?_⟩
  · intro h
    rcases h with ⟨rfl, -, rfl⟩
    exact ⟨0, rfl, rfl, rfl⟩
  · intro h
    rcases h with ⟨q, rfl, rfl, rfl⟩
    exact ⟨rfl, List.length_pos_iff.2 htext, rfl⟩

theorem reads_textEnd : Reads .endAnchor .textEnd := by
  intro text _ m t p w hlabel
  rw [Machine.leads_iff, hlabel]
  refine ⟨?_, ?_⟩
  · intro h
    rcases h with ⟨rfl, rfl⟩
    exact ⟨_, rfl, rfl, rfl⟩
  · intro h
    rcases h with ⟨q, rfl, rfl, rfl⟩
    exact ⟨rfl, rfl⟩

/-- An atom that is one arc to a new state. -/
theorem drawing_branch {a : Atom} {label : Label} {entry : Nat} {d : Draft}
    (hentry : entry < d.stateCount) (hlabel : label ≠ .notInSet) (hreads : Reads label a) :
    Drawing (.atom a) entry d (d.branch entry label)
      [{ source := entry, target := d.stateCount, input := some label }] where
  arcs_eq := by simp [Draft.branch, Draft.state, Draft.arc]
  drawn := by
    refine ⟨Nat.le_succ _, Or.inr ⟨Nat.le_refl _, Nat.lt_succ_self _⟩, ?_, ?_, ?_, ?_⟩
    · simp [Owned]
    · simp [Owned, Draft.branch, Draft.state, Draft.arc]
    · simp [Transition.inputLabel, hlabel]
    · simp [Schema.admits, Schema.acceptor]
  leads := by
    intro text htext
    refine leads_atom (Nat.ne_of_lt hentry) ?_ ?_
    · intro p w
      rw [Machine.moves_singleton, hreads text htext _ _ _ _ rfl]
      exact and_iff_right rfl
    · intro p w
      rw [Machine.moves_singleton]
      exact fun h => Nat.ne_of_lt hentry h.1

/-! ## Classes -/

/-- The arcs of the code points of a class. -/
def fanArcs (source target : Nat) (codes : List Nat) : List Transition :=
  codes.map fun code => { source, target, input := some (.symbol code) }

@[simp] theorem stateCount_arc (d : Draft) (source target : Nat) (label : Label) :
    (d.arc source target label).stateCount = d.stateCount := rfl

@[simp] theorem toList_arcs_arc (d : Draft) (source target : Nat) (label : Label) :
    (d.arc source target label).arcs.toList =
      d.arcs.toList ++ [{ source, target, input := some label }] := by
  simp [Draft.arc]

@[simp] theorem stateCount_fan (d : Draft) (source target : Nat) (codes : List Nat) :
    (d.fan source target codes).stateCount = d.stateCount := by
  unfold Draft.fan
  induction codes generalizing d with
  | nil => rfl
  | cons code codes ih => rw [List.foldl_cons, ih, stateCount_arc]

@[simp] theorem toList_arcs_fan (d : Draft) (source target : Nat) (codes : List Nat) :
    (d.fan source target codes).arcs.toList = d.arcs.toList ++ fanArcs source target codes := by
  unfold Draft.fan fanArcs
  induction codes generalizing d with
  | nil => simp
  | cons code codes ih =>
    rw [List.foldl_cons, ih, toList_arcs_arc, List.append_assoc, List.map_cons]
    rfl

theorem mem_fanArcs {source target : Nat} {codes : List Nat} {t : Transition}
    (ht : t ∈ fanArcs source target codes) : t.source = source ∧ t.target = target ∧
      (∃ code, t.inputLabel = .symbol code) ∧ Schema.acceptor.admits t = true := by
  obtain ⟨code, -, rfl⟩ := List.mem_map.1 ht
  exact ⟨rfl, rfl, ⟨code, rfl⟩, rfl⟩

theorem moves_fanArcs {text : List Char} {source target : Nat} {codes : List Nat}
    {v w : Nat × Nat} : (Machine.ofArcs (fanArcs source target codes)).Moves text v w ↔
      v.1 = source ∧ ∃ c, text[v.2]? = some c ∧ c.toNat ∈ codes ∧ w = (target, v.2 + 1) := by
  refine ⟨?_, ?_⟩
  · intro h
    rcases h with ⟨t, ht, hsource, hleads⟩
    obtain ⟨code, hcode, rfl⟩ := List.mem_map.1 ht
    obtain ⟨c, hc, rfl, hw⟩ := Machine.leads_iff.1 hleads
    exact ⟨hsource.symm, c, hc, hcode, hw⟩
  · intro h
    rcases h with ⟨hsource, c, hc, hcode, hw⟩
    exact ⟨_, List.mem_map.2 ⟨c.toNat, hcode, rfl⟩, hsource.symm,
      Machine.leads_iff.2 ⟨c, hc, rfl, hw⟩⟩

/-- The marker of a negated class lets a character pass to the exit if the class reads it. -/
theorem outside_marker_iff {members : CharClass} (hnegated : members.negated = true)
    {entry exit marker : Nat} (hne : entry ≠ marker) {t : Transition} (ht : t.source = entry)
    (c : Char) (target : Nat) :
    (Machine.ofArcs (t :: fanArcs marker exit members.codes)).Outside marker c target ↔
      members.Reads c ∧ target = exit := by
  have hleaving : (Machine.ofArcs (t :: fanArcs marker exit members.codes)).leaving marker =
      fanArcs marker exit members.codes := by
    have hall : ∀ u ∈ fanArcs marker exit members.codes, decide (u.source = marker) = true :=
      fun u hu => decide_eq_true (mem_fanArcs hu).1
    rw [Machine.leaving, Machine.ofArcs, List.filter_cons_of_neg (by simpa [ht] using hne),
      List.filter_eq_self.2 hall]
  have hlast : (∃ u, (fanArcs marker exit members.codes).getLast? = some u ∧ u.target = target) ↔
      (∃ d, members.Lists d) ∧ target = exit := by
    rw [← members.codes_ne_nil]
    refine ⟨?_, ?_⟩
    · intro h
      rcases h with ⟨u, hu, rfl⟩
      refine ⟨?_, (mem_fanArcs (List.mem_of_getLast? hu)).2.1⟩
      rintro hnil
      rw [hnil] at hu
      cases hu
    · intro h
      rcases h with ⟨hnil, rfl⟩
      have hfan : fanArcs marker target members.codes ≠ [] := by
        simpa [fanArcs] using hnil
      exact ⟨_, List.getLast?_eq_some_getLast hfan, (mem_fanArcs (List.getLast_mem hfan)).2.1⟩
  have hunlisted : (∀ u ∈ fanArcs marker exit members.codes, u.inputLabel ≠ .ofChar c) ↔
      ¬ members.Lists c := by
    rw [← members.toNat_mem_codes]
    simp only [fanArcs, List.forall_mem_map, Transition.inputLabel, Label.ofChar,
      Option.getD_some, ne_eq, Label.symbol.injEq]
    exact List.forall_mem_ne'
  refine ⟨?_, ?_⟩
  · intro h
    rcases h with ⟨-, hno, hsome⟩
    rw [hleaving, hunlisted] at hno
    rw [hleaving, hlast] at hsome
    rw [CharClass.Reads, if_pos hnegated]
    exact ⟨⟨hsome.1, hno⟩, hsome.2⟩
  · intro h
    rcases h with ⟨hreads, htarget⟩
    rw [CharClass.Reads, if_pos hnegated] at hreads
    refine ⟨Machine.not_isFinal_ofArcs _ _, ?_, ?_⟩
    · rw [hleaving, hunlisted]
      exact hreads.2
    · rw [hleaving, hlast]
      exact ⟨hreads.1, htarget⟩

/-- The arcs of a class where the states from `n` on are new. The first of these is the exit, and
the second the marker of a negated class. -/
def CharClass.arcs (members : CharClass) (entry n : Nat) : List Transition :=
  if members.negated then
    { source := entry, target := n + 1, input := some .notInSet } ::
      fanArcs (n + 1) n members.codes
  else fanArcs entry n members.codes

section arcs

variable {members : CharClass} {entry n : Nat} {t : Transition}

theorem CharClass.draw_eq (members : CharClass) (entry : Nat) (d : Draft) :
    (members.draw entry d).1 = d.stateCount ∧
      (members.draw entry d).2.stateCount = d.stateCount + (if members.negated then 2 else 1) ∧
      (members.draw entry d).2.arcs.toList =
        d.arcs.toList ++ members.arcs entry d.stateCount := by
  unfold draw arcs
  cases members.negated with
  | false => simp [Draft.state]
  | true => simp [Draft.state, Draft.branch]

/-- The arcs of a class leave its entry, or the marker if it is negated, for its exit. One arc leads
from the entry to the marker. -/
theorem CharClass.mem_arcs (ht : t ∈ members.arcs entry n) :
    Schema.acceptor.admits t = true ∧
      ((t.source = entry ∨ members.negated = true ∧ t.source = n + 1) ∧ t.target = n ∧
          (∃ code, t.inputLabel = .symbol code) ∨
        members.negated = true ∧ t.source = entry ∧ t.target = n + 1 ∧
          t.inputLabel = .notInSet) := by
  unfold arcs at ht
  cases hnegated : members.negated with
  | false =>
    rw [hnegated] at ht
    obtain ⟨hsource, htarget, hlabel, hadmits⟩ := mem_fanArcs ht
    exact ⟨hadmits, Or.inl ⟨Or.inl hsource, htarget, hlabel⟩⟩
  | true =>
    rw [hnegated, if_pos rfl] at ht
    rcases List.mem_cons.1 ht with rfl | ht
    · exact ⟨rfl, Or.inr ⟨rfl, rfl, rfl, rfl⟩⟩
    · obtain ⟨hsource, htarget, hlabel, hadmits⟩ := mem_fanArcs ht
      exact ⟨hadmits, Or.inl ⟨Or.inr ⟨rfl, hsource⟩, htarget, hlabel⟩⟩

theorem CharClass.drawn_arcs (members : CharClass) (entry n : Nat) :
    Drawn entry n n (n + if members.negated then 2 else 1) (members.arcs entry n) := by
  have hsize : 0 < (if members.negated then 2 else 1) := by split <;> decide
  refine ⟨Nat.le_add_right _ _, Or.inr ⟨Nat.le_refl _, Nat.lt_add_of_pos_right hsize⟩, ?_, ?_, ?_,
    fun t ht => (mem_arcs ht).1⟩
  · intro t ht
    unfold Owned
    rcases (mem_arcs ht).2 with ⟨hsource | ⟨hnegated, hsource⟩, -⟩ | ⟨-, hsource, -⟩
    · exact Or.inl hsource
    · rw [if_pos hnegated]
      omega
    · exact Or.inl hsource
  · intro t ht
    unfold Owned
    rcases (mem_arcs ht).2 with ⟨-, htarget, -⟩ | ⟨hnegated, -, htarget, -⟩
    · omega
    · rw [if_pos hnegated]
      omega
  · intro t ht hlabel
    rcases (mem_arcs ht).2 with ⟨-, -, code, hcode⟩ | ⟨hnegated, -, htarget, -⟩
    · rw [hlabel] at hcode
      cases hcode
    · rw [if_pos hnegated]
      omega

/-- A step along the arcs of a class from its entry reads a character of the class, and comes to its
exit. -/
theorem CharClass.moves_entry_iff (hentry : entry < n) {text : List Char} {p : Nat}
    {w : Nat × Nat} : (Machine.ofArcs (members.arcs entry n)).Moves text (entry, p) w ↔
      ∃ c, text[p]? = some c ∧ members.Reads c ∧ w = (n, p + 1) := by
  unfold arcs
  cases hnegated : members.negated with
  | false =>
    rw [if_neg Bool.false_ne_true, moves_fanArcs]
    simp only [true_and, members.toNat_mem_codes, Reads, hnegated, Bool.false_eq_true, if_false]
  | true =>
    rw [if_pos rfl]
    have hmarker : entry ≠ n + 1 := by omega
    refine ⟨?_, ?_⟩
    · rintro ⟨t, ht, hsource, hleads⟩
      rcases List.mem_cons.1 ht with rfl | ht
      · obtain ⟨c, hc, target, hout, rfl⟩ := Machine.leads_iff.1 hleads
        obtain ⟨hreads, rfl⟩ := (outside_marker_iff hnegated hmarker rfl c target).1 hout
        exact ⟨c, hc, hreads, rfl⟩
      · rw [(mem_fanArcs ht).1] at hsource
        exact absurd hsource.symm hmarker
    · rintro ⟨c, hc, hreads, rfl⟩
      refine ⟨_, List.mem_cons_self, rfl, Machine.leads_iff.2 ⟨c, hc, n, ?_, rfl⟩⟩
      exact (outside_marker_iff hnegated hmarker rfl c _).2 ⟨hreads, rfl⟩

theorem CharClass.not_moves_exit (hentry : entry < n) {text : List Char} {p : Nat}
    {w : Nat × Nat} : ¬ (Machine.ofArcs (members.arcs entry n)).Moves text (n, p) w := by
  rintro ⟨t, ht, hsource, -⟩
  rcases (mem_arcs ht).2 with ⟨hfrom | ⟨-, hfrom⟩, -⟩ | ⟨-, hfrom, -⟩
  all_goals
    dsimp only at hsource
    omega

theorem drawing_class {d : Draft} (hentry : entry < d.stateCount) :
    Drawing (.atom (.oneOf members)) entry d (members.draw entry d)
      (members.arcs entry d.stateCount) := by
  obtain ⟨hexit, hcount, harcs⟩ := members.draw_eq entry d
  refine ⟨harcs, ?_, ?_⟩
  · rw [hexit, hcount]
    exact members.drawn_arcs entry _
  · intro text _
    rw [hexit]
    refine leads_atom (Nat.ne_of_lt hentry) ?_ fun p w => members.not_moves_exit hentry
    intro p w
    rw [members.moves_entry_iff hentry]
    simp only [Atom.Matches]
    refine ⟨?_, ?_⟩
    · rintro ⟨c, hc, hreads, rfl⟩
      exact ⟨p + 1, rfl, c, hc, hreads, rfl⟩
    · rintro ⟨q, rfl, c, hc, hreads, rfl⟩
      exact ⟨c, hc, hreads, rfl⟩

end arcs

end Pattern

end WeightedAutomata
