-- The markers of negated classes. Drawing makes a marker for one class and comes back to it no
-- more: one arc leads to it, the code points of the class leave it for one exit, and it is never
-- the exit of a part. So no search goes to a marker.
import WeightedAutomata.Proofs.Pattern.Separation
import WeightedAutomata.Proofs.Search.Course

namespace WeightedAutomata

open Relation

namespace Pattern

/-! ## Private targets -/

/-- No other arc leads to the target of `t`, and arcs that read a code point leave it, all for one
other state. -/
structure PrivateTarget (arcs : List Transition) (t : Transition) : Prop where
  entered : arcs.filter (fun u => u.target = t.target) = [t]
  left : ∃ exit ≠ t.target, ∀ u ∈ arcs, u.source = t.target →
    u.target = exit ∧ ∃ code, u.inputLabel = .symbol code

/-- No arc leaves a state or leads to it. -/
def Untouched (arcs : List Transition) (state : Nat) : Prop :=
  ∀ u ∈ arcs, u.source ≠ state ∧ u.target ≠ state

section around

variable {arcs before after : List Transition} {t u : Transition}

theorem PrivateTarget.eq_of_target_eq (h : PrivateTarget arcs t) (hu : u ∈ arcs)
    (htarget : u.target = t.target) : u = t := by
  have hmem : u ∈ arcs.filter (fun u => u.target = t.target) :=
    List.mem_filter.2 ⟨hu, decide_eq_true htarget⟩
  rw [h.entered] at hmem
  exact List.mem_singleton.1 hmem

theorem filter_target_eq_nil {state : Nat} (h : ∀ u ∈ arcs, u.target ≠ state) :
    arcs.filter (fun u => u.target = state) = [] := by
  rw [List.filter_eq_nil_iff]
  intro u hu
  simpa using h u hu

/-- A private target stays private between arcs that do not touch it. -/
theorem PrivateTarget.between (h : PrivateTarget arcs t) (hbefore : Untouched before t.target)
    (hafter : Untouched after t.target) : PrivateTarget (before ++ (arcs ++ after)) t where
  entered := by
    rw [List.filter_append, List.filter_append, h.entered,
      filter_target_eq_nil fun u hu => (hbefore u hu).2,
      filter_target_eq_nil fun u hu => (hafter u hu).2]
    rfl
  left := by
    obtain ⟨exit, hne, hleft⟩ := h.left
    refine ⟨exit, hne, List.forall_mem_append.2 ⟨?_, List.forall_mem_append.2 ⟨hleft, ?_⟩⟩⟩
    · exact fun u hu hsource => absurd hsource (hbefore u hu).1
    · exact fun u hu hsource => absurd hsource (hafter u hu).1

theorem untouched_nil (state : Nat) : Untouched [] state := List.forall_mem_nil _

end around

/-! ## Parts of a pattern -/

section parts

variable {entry middle exit n n' n'' : Nat} {arcs arcs' : List Transition} {t : Transition}
  {members : CharClass} {d : Draft}

/-- The marker of a negated class is private among the arcs of the class. -/
theorem CharClass.privateTarget (hentry : entry < n) (ht : t ∈ members.arcs entry n)
    (hlabel : t.inputLabel = .notInSet) : PrivateTarget (members.arcs entry n) t := by
  have hnegated : members.negated = true ∧ t.target = n + 1 := by
    rcases (mem_arcs ht).2 with ⟨-, -, code, hcode⟩ | ⟨hnegated, -, htarget, -⟩
    · rw [hlabel] at hcode
      cases hcode
    · exact ⟨hnegated, htarget⟩
  obtain ⟨hnegated, htarget⟩ := hnegated
  have hleft : ∀ u ∈ members.arcs entry n, u.source = t.target →
      u.target = n ∧ ∃ code, u.inputLabel = .symbol code := by
    intro u hu hsource
    rcases (mem_arcs hu).2 with ⟨-, hexit, hcode⟩ | ⟨-, hfrom, -⟩
    · exact ⟨hexit, hcode⟩
    · omega
  refine ⟨?_, n, by omega, hleft⟩
  have hfan : ∀ u ∈ fanArcs (n + 1) n members.codes, u.target ≠ t.target := by
    intro u hu
    rw [(mem_fanArcs hu).2.1]
    omega
  unfold arcs at ht ⊢
  rw [hnegated, if_pos rfl] at ht ⊢
  rcases List.mem_cons.1 ht with rfl | ht
  · rw [List.filter_cons_of_pos (by simp), filter_target_eq_nil hfan]
  · exact absurd rfl (hfan t ht)

/-- The second part of a sequence leaves the markers of the first one alone. -/
theorem Drawn.untouched_marker (h : Drawn entry middle n n' arcs) (ht : t ∈ arcs)
    (hlabel : t.inputLabel = .notInSet) (h' : Drawn middle exit n' n'' arcs') :
    Untouched arcs' t.target := by
  intro u hu
  have hmarker := h.marker t ht hlabel
  have hsource := h'.source u hu
  have htarget := h'.target u hu
  unfold Owned at hsource htarget
  omega

/-- So does the first part with those of the second, which are new behind it. -/
theorem Drawn.untouched_later_marker (hentry : entry < n) (h : Drawn entry middle n n' arcs)
    (h' : Drawn middle exit n' n'' arcs') (ht : t ∈ arcs') (hlabel : t.inputLabel = .notInSet) :
    Untouched arcs t.target := by
  intro u hu
  have hgrows := h.grows
  have hmarker := h'.marker t ht hlabel
  have hsource := h.source u hu
  have htarget := h.target u hu
  unfold Owned at hsource htarget
  omega

/-- The arcs of a quantifier go between joints, and no joint is a marker. -/
theorem Drawn.untouched_by_quantifier {q : Quantifier} (hentry : entry < n)
    (h : Drawn entry middle n n' arcs) (hends : q.Ends middle n' exit n'') (ht : t ∈ arcs)
    (hlabel : t.inputLabel = .notInSet) : Untouched (q.arcs entry middle exit) t.target := by
  intro u hu
  have hmarker := h.marker t ht hlabel
  have hjoint : ∀ i : Joint, i.state entry middle exit ≠ t.target := by
    intro i
    unfold Quantifier.Ends at hends
    cases i <;> simp only [Joint.state] <;> omega
  obtain ⟨-, -, i, k, -, hi, hk⟩ := Quantifier.skips_of_mem_arcs hu
  exact ⟨hi ▸ hjoint i, hk ▸ hjoint k⟩

theorem Draft.inputLabel_of_branch {label : Label} {a : Atom}
    (hdraw : a.draw entry d = d.branch entry label) (ht : t ∈ (Expr.atom a).arcs entry d) :
    t.inputLabel = label := by
  simp only [Expr.arcs, Expr.draw, hdraw, Draft.branch, Draft.state, toList_arcs_arc,
    List.drop_left, List.mem_singleton] at ht
  rw [ht]
  rfl

/-- Every marker of an expression is private among the arcs that are drawn for it. -/
theorem Expr.privateTarget (e : Expr) (hentry : entry < d.stateCount) (ht : t ∈ e.arcs entry d)
    (hlabel : t.inputLabel = .notInSet) : PrivateTarget (e.arcs entry d) t := by
  induction e generalizing entry d with
  | empty =>
    rw [(drawing_empty entry d).arcs_eq_arcs] at ht
    cases ht
  | atom a =>
    cases a with
    | oneOf members =>
      rw [(drawing_class hentry).arcs_eq_arcs] at ht ⊢
      exact CharClass.privateTarget hentry ht hlabel
    | char | any | textStart | textEnd =>
      rw [Draft.inputLabel_of_branch rfl ht] at hlabel
      cases hlabel
  | seq e e' ih ih' =>
    have h := (e.drawing hentry).drawn
    have h' := (e'.drawing (e.exit_lt hentry)).drawn
    rw [arcs_seq e e' hentry] at ht ⊢
    rcases List.mem_append.1 ht with ht | ht
    · exact (ih hentry ht).between (untouched_nil _) (h.untouched_marker ht hlabel h')
    · have hlater := (ih' (e.exit_lt hentry) ht).between
        (h.untouched_later_marker hentry h' ht hlabel) (untouched_nil _)
      rwa [List.append_nil] at hlater
  | quantified q e ih =>
    have h := (e.drawing hentry).drawn
    rw [arcs_quantified q e hentry] at ht ⊢
    rcases List.mem_append.1 ht with ht | ht
    · exact (ih hentry ht).between (untouched_nil _)
        (h.untouched_by_quantifier hentry (q.ends_draw _ _ _) ht hlabel)
    · rw [Transition.inputLabel, (Quantifier.skips_of_mem_arcs ht).1] at hlabel
      cases hlabel

end parts

/-- The markers of the machine of an expression are private, and neither the start nor final. -/
theorem Expr.privateTarget_machine (e : Expr) (name : String) {t : Transition}
    (ht : t ∈ (e.machine name).transitions) (hlabel : t.inputLabel = .notInSet) :
    t.target ≠ 0 ∧ ¬ (e.machine name).IsFinal t.target ∧
      PrivateTarget (e.machine name).transitions t := by
  have hdrawing := e.drawing_machine name
  obtain ⟨hle, -, hexit⟩ := hdrawing.drawn.marker t ht hlabel
  have harcs := hdrawing.arcs_eq_arcs
  rw [e.isFinal_machine_iff name, ← harcs]
  exact ⟨Nat.ne_of_gt hle, hexit, e.privateTarget Nat.one_pos (harcs ▸ ht) hlabel⟩

/-- The expression of the pattern `([^ab]*[^c])?`. -/
def twoClasses : Expr :=
  .seq (.quantified .optional (.seq
    (.quantified .star (.atom (.oneOf ⟨true, [.one 'a', .one 'b']⟩)))
    (.seq (.atom (.oneOf ⟨true, [.one 'c']⟩)) .empty))) .empty

theorem spells_twoClasses : Spells "([^ab]*[^c])?".toList twoClasses := by
  rw [← parse_eq_ok_iff]
  cbv

end Pattern

namespace Machine

open Pattern

/-! ## Machines with private markers -/

/-- The target of every transition for a negated class is private. -/
def PrivateMarkers (m : Machine) : Prop :=
  ∀ t ∈ m.transitions, t.inputLabel = .notInSet → PrivateTarget m.transitions t

variable {m : Machine} {text : List Char} {v w : Nat × Nat} {t : Transition}

/-- Two transitions for negated classes have two targets. -/
theorem PrivateMarkers.nodup_targets (h : m.PrivateMarkers) :
    ((m.transitions.filter fun t => t.inputLabel = .notInSet).map (·.target)).Nodup := by
  rw [List.nodup_iff_count_le_one]
  intro state
  by_cases hstate : state ∈ (m.transitions.filter fun t => t.inputLabel = .notInSet).map (·.target)
  · obtain ⟨t, hmem, rfl⟩ := List.mem_map.1 hstate
    obtain ⟨ht, hlabel⟩ := List.mem_filter.1 hmem
    have hentered := (h t ht (of_decide_eq_true hlabel)).entered
    calc ((m.transitions.filter fun t => t.inputLabel = .notInSet).map (·.target)).count t.target
      _ = (m.transitions.filter fun t => t.inputLabel = .notInSet).countP
          (fun u => u.target = t.target) := by rw [List.count, List.countP_map]; rfl
      _ ≤ m.transitions.countP (fun u => u.target = t.target) :=
          List.filter_sublist.countP_le
      _ = 1 := by rw [List.countP_eq_length_filter, hentered, List.length_singleton]
  · rw [List.count_eq_zero_of_not_mem hstate]
    exact Nat.zero_le _

/-- An edge comes to a state over a transition that is not for a negated class: behind a marker it
is the last code point that leaves it. -/
theorem PrivateMarkers.exists_of_moves (h : m.PrivateMarkers) (hmoves : m.Moves text v w) :
    ∃ u ∈ m.transitions, u.target = w.1 ∧ u.inputLabel ≠ .notInSet := by
  obtain ⟨t, ht, -, hleads⟩ := hmoves
  by_cases hlabel : t.inputLabel = .notInSet
  · rw [leads_iff, hlabel] at hleads
    obtain ⟨c, -, target, hout, rfl⟩ := hleads
    obtain ⟨u, hlast, htarget⟩ := hout.last
    obtain ⟨hu, hsource⟩ := List.mem_filter.1 (List.mem_of_getLast? hlast)
    obtain ⟨exit, -, hleft⟩ := (h t ht hlabel).left
    obtain ⟨-, code, hcode⟩ := hleft u hu (of_decide_eq_true hsource)
    refine ⟨u, hu, htarget, ?_⟩
    rw [hcode]
    exact nofun
  · refine ⟨t, ht, ?_, hlabel⟩
    obtain ⟨state, p⟩ := v
    cases hleads with
    | outside _ _ _ hset => exact absurd hset hlabel
    | _ => rfl

/-- No edge comes to a marker. -/
theorem PrivateMarkers.ne_of_moves (h : m.PrivateMarkers) (ht : t ∈ m.transitions)
    (hlabel : t.inputLabel = .notInSet) (hmoves : m.Moves text v w) : w.1 ≠ t.target := by
  intro htarget
  obtain ⟨u, hu, hw, hother⟩ := h.exists_of_moves hmoves
  rw [(h t ht hlabel).eq_of_target_eq hu (hw.trans htarget)] at hother
  exact hother hlabel

end Machine

namespace Search

variable {s : Subject} {config : Config} {m : Machine} {text : List Char} {start : Nat}
  {state : State} {t : Transition}

/-- No search comes to a marker, unless it is the start state, and none looks at a node there. -/
theorem Course.ne_marker (hs : s.Presents m text) (hprivate : m.PrivateMarkers)
    (ht : t ∈ m.transitions) (hlabel : t.inputLabel = .notInSet) (hzero : t.target ≠ 0)
    (h : Course s config start state) : ∀ frame ∈ state.stack,
      frame.node.state ≠ t.target ∧ ∀ y, s.Next frame.node y → y.state ≠ t.target := by
  obtain ⟨hroot, hgood, -⟩ := h.good hs
  have hnext : ∀ x y, s.Proper x → s.Next x y → y.state ≠ t.target := by
    intro x y hx hxy
    obtain ⟨w, hmoves, rfl⟩ := (hs.next_iff_of_proper hx y).1 hxy
    exact hprivate.ne_of_moves ht hlabel hmoves
  intro frame hframe
  have hreach := hgood.reach frame hframe
  refine ⟨?_, fun y => hnext _ y (hgood.proper hs hroot frame hframe)⟩
  rcases hreach.cases_tail with heq | ⟨x, hx, hstep⟩
  · rw [heq]
    exact hzero.symm
  · exact hnext x _ (hroot.reach hs hx) hstep

end Search

namespace Automaton

open Pattern Search

variable {pattern : String} {a : Automaton}

/-- In the automaton of a pattern the marker of every negated class is neither the start nor the
final state. One transition leads to it, code points lead from it to one other state, no two classes
share it, and no search of any text comes to it. -/
theorem ofPattern_markers_private (h : ofPattern pattern = .ok a) :
    ∃ m, a = ofMachines .acceptor [m] ∧ (∃ last, ∀ state, m.IsFinal state ↔ state = last) ∧
      ((m.transitions.filter fun t => t.inputLabel = .notInSet).map (·.target)).Nodup ∧
      ∀ t ∈ m.transitions, t.inputLabel = .notInSet →
        t.target ≠ 0 ∧ ¬ m.IsFinal t.target ∧ PrivateTarget m.transitions t ∧
        ∀ text, ∃ s, a.subject text = .ok s ∧ ∀ config start state,
          Course s config start state → ∀ frame ∈ state.stack,
            frame.node.state ≠ t.target ∧ ∀ y, s.Next frame.node y → y.state ≠ t.target := by
  obtain ⟨e, -, rfl⟩ := (ofPattern_eq_ok_iff pattern a).1 h
  generalize hname : "Regex: " ++ pattern = name
  have hprivate : (e.machine name).PrivateMarkers :=
    fun t ht hlabel => (e.privateTarget_machine name ht hlabel).2.2
  have hsound : (ofMachines .acceptor [e.machine name]).violation? = none :=
    (violation?_eq_none_iff _).2 ⟨_, List.forall_mem_singleton.2 (e.fits_machine name), rfl⟩
  refine ⟨e.machine name, rfl, ⟨_, e.isFinal_machine_iff name⟩, hprivate.nodup_targets, ?_⟩
  intro t ht hlabel
  obtain ⟨hzero, hfinal, htarget⟩ := e.privateTarget_machine name ht hlabel
  refine ⟨hzero, hfinal, htarget, ?_⟩
  intro text
  obtain ⟨s, hs, hpresents⟩ := exists_subject hsound (by rw [machines_ofMachines]; rfl) text
  refine ⟨s, hs, ?_⟩
  intro config start state hcourse
  exact hcourse.ne_marker hpresents hprivate ht hlabel hzero

/-- The first class is repeated, and its exit is the entry of the second one. -/
theorem ofPattern_markers_private_twoClasses :
    ∃ a m, ofPattern "([^ab]*[^c])?" = .ok a ∧ a = ofMachines .acceptor [m] ∧
      (m.transitions.filter fun t => t.inputLabel = .notInSet).map (·.target) = [2, 5] ∧
      ∀ t ∈ m.transitions, t.inputLabel = .notInSet →
        t.target ≠ 0 ∧ ¬ m.IsFinal t.target ∧ PrivateTarget m.transitions t ∧
        ∀ text, ∃ s, a.subject text = .ok s ∧ ∀ config start state,
          Course s config start state → ∀ frame ∈ state.stack,
            frame.node.state ≠ t.target ∧ ∀ y, s.Next frame.node y → y.state ≠ t.target := by
  have ha : ofPattern "([^ab]*[^c])?" =
      .ok (ofMachines .acceptor [twoClasses.machine ("Regex: " ++ "([^ab]*[^c])?")]) :=
    (ofPattern_eq_ok_iff _ _).2 ⟨_, spells_twoClasses, rfl⟩
  obtain ⟨m, hm, -, -, hprivate⟩ := ofPattern_markers_private ha
  have hmachines := congrArg machines hm
  rw [machines_ofMachines, machines_ofMachines] at hmachines
  obtain rfl := (List.cons.inj hmachines).1
  exact ⟨_, _, ha, rfl, by decide, hprivate⟩

end Automaton

end WeightedAutomata
