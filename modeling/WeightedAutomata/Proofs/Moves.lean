-- The graph of a machine over a text. Its nodes are pairs of a state and a position, and its
-- edges say what each label reads. A search of the machine goes along just these edges, since
-- a node of the search is at the start of the text exactly when its position is 0.
import Mathlib.Data.List.Perm.Subperm
import Mathlib.Data.List.ProdSigma
import WeightedAutomata.Proofs.Bundles
import WeightedAutomata.Proofs.Packing
import WeightedAutomata.Proofs.Search.Run

namespace WeightedAutomata

open Relation

namespace Machine

/-! ## Edges -/

/-- The transitions that leave a state, in order. -/
def leaving (m : Machine) (state : Nat) : List Transition :=
  m.transitions.filter fun t => t.source = state

def IsFinal (m : Machine) (state : Nat) : Prop :=
  ∃ flags, m.flags[state]? = some flags ∧ flags.isFinal = true

/-- The marker of a negated class lets `c` pass: it is not final, no transition that leaves
it is labelled `c`, and the last one of them ends in `target`. -/
structure Outside (m : Machine) (marker : Nat) (c : Char) (target : Nat) : Prop where
  not_final : ¬ m.IsFinal marker
  unlisted : ∀ t ∈ m.leaving marker, t.inputLabel ≠ .ofChar c
  last : ∃ t, (m.leaving marker).getLast? = some t ∧ t.target = target

/-- A transition leads from a position of the text to a state and a position. -/
inductive Leads (m : Machine) (text : List Char) (t : Transition) : Nat → Nat × Nat → Prop
  | epsilon (p : Nat) : t.inputLabel = .epsilon → Leads m text t p (t.target, p)
  | textEnd : t.inputLabel = .endAnchor → Leads m text t text.length (t.target, text.length)
  | textStart : t.inputLabel = .startAnchor → 0 < text.length → Leads m text t 0 (t.target, 0)
  | any (p : Nat) : t.inputLabel = .anyChar → p < text.length → Leads m text t p (t.target, p + 1)
  | symbol (p : Nat) (c : Char) : t.inputLabel = .symbol c.toNat → text[p]? = some c →
      Leads m text t p (t.target, p + 1)
  | outside (p : Nat) (c : Char) (target : Nat) : t.inputLabel = .notInSet → text[p]? = some c →
      m.Outside t.target c target → Leads m text t p (target, p + 1)

theorem leads_iff {m : Machine} {text : List Char} {t : Transition} {p : Nat} {w : Nat × Nat} :
    m.Leads text t p w ↔ match t.inputLabel with
      | .epsilon => w = (t.target, p)
      | .endAnchor => p = text.length ∧ w = (t.target, p)
      | .startAnchor => p = 0 ∧ 0 < text.length ∧ w = (t.target, p)
      | .anyChar => p < text.length ∧ w = (t.target, p + 1)
      | .symbol code => ∃ c, text[p]? = some c ∧ code = c.toNat ∧ w = (t.target, p + 1)
      | .notInSet => ∃ c, text[p]? = some c ∧ ∃ target, m.Outside t.target c target ∧
          w = (target, p + 1) := by
  refine ⟨?_, ?_⟩
  · intro h
    cases h with
    | epsilon _ hlabel => rw [hlabel]
    | textEnd hlabel => rw [hlabel]; exact ⟨rfl, rfl⟩
    | textStart hlabel hpos => rw [hlabel]; exact ⟨rfl, hpos, rfl⟩
    | any _ hlabel hlt => rw [hlabel]; exact ⟨hlt, rfl⟩
    | symbol _ c hlabel hc => rw [hlabel]; exact ⟨c, hc, rfl, rfl⟩
    | outside _ c target hlabel hc hout => rw [hlabel]; exact ⟨c, hc, target, hout, rfl⟩
  · intro h
    split at h
    · rename_i hlabel
      exact h ▸ .epsilon p hlabel
    · rename_i hlabel
      obtain ⟨rfl, rfl⟩ := h
      exact .textEnd hlabel
    · rename_i hlabel
      obtain ⟨rfl, hpos, rfl⟩ := h
      exact .textStart hlabel hpos
    · rename_i hlabel
      obtain ⟨hlt, rfl⟩ := h
      exact .any p hlabel hlt
    · rename_i hlabel
      obtain ⟨c, hc, rfl, rfl⟩ := h
      exact .symbol p c hlabel hc
    · rename_i hlabel
      obtain ⟨c, hc, target, hout, rfl⟩ := h
      exact .outside p c target hlabel hc hout

/-- The edges between pairs of a state and a position. -/
def Moves (m : Machine) (text : List Char) (v w : Nat × Nat) : Prop :=
  ∃ t ∈ m.transitions, t.source = v.1 ∧ m.Leads text t v.2 w

/-- A final state can be reached from the start state with the characters between two
positions. -/
def Accepts (m : Machine) (text : List Char) (start stop : Nat) : Prop :=
  ∃ state, m.IsFinal state ∧ ReflTransGen (m.Moves text) (0, start) (state, stop)

theorem Moves.position_le {m : Machine} {text : List Char} {v w : Nat × Nat}
    (h : m.Moves text v w) (hv : v.2 ≤ text.length) : w.2 ≤ text.length := by
  obtain ⟨q, p⟩ := v
  obtain ⟨t, -, -, hleads⟩ := h
  cases hleads with
  | epsilon => exact hv
  | textEnd => exact Nat.le_refl _
  | textStart => exact Nat.zero_le _
  | any _ _ hlt => exact hlt
  | symbol _ _ _ hc => exact (List.getElem?_eq_some_iff.1 hc).1
  | outside _ _ _ _ hc _ => exact (List.getElem?_eq_some_iff.1 hc).1

theorem Accepts.stop_le {m : Machine} {text : List Char} {start stop : Nat}
    (h : m.Accepts text start stop) (hstart : start ≤ text.length) : stop ≤ text.length := by
  obtain ⟨state, -, hmoves⟩ := h
  suffices hle : ∀ w, ReflTransGen (m.Moves text) (0, start) w → w.2 ≤ text.length from
    hle (state, stop) hmoves
  intro w hw
  induction hw with
  | refl => exact hstart
  | tail _ hstep ih => exact hstep.position_le ih

end Machine

/-! ## Paths without repetition -/

/-- A path along the edges that comes to no node twice. -/
structure Machine.Trail (m : Machine) (text : List Char) (v : Nat × Nat)
    (path : List (Nat × Nat)) : Prop where
  head : path.head? = some v
  chain : path.IsChain (m.Moves text)
  nodup : path.Nodup

theorem Machine.Leads.target_lt {m : Machine} {text : List Char} {t : Transition} {p : Nat}
    {w : Nat × Nat} (hm : m.Closed) (ht : t ∈ m.transitions) (h : m.Leads text t p w) :
    w.1 < m.flags.length := by
  cases h with
  | outside _ c target _ _ hout =>
    obtain ⟨u, hu, rfl⟩ := hout.last
    exact (hm u (List.mem_filter.1 (List.mem_of_getLast? hu)).1).2
  | _ => exact (hm t ht).2

/-- All nodes of a path stay in the machine and in the text. -/
theorem Machine.mem_product_of_isChain {m : Machine} {text : List Char} (hm : m.Closed)
    {path : List (Nat × Nat)} {v : Nat × Nat} (hchain : (v :: path).IsChain (m.Moves text))
    (hstate : v.1 < m.flags.length) (hposition : v.2 ≤ text.length) :
    ∀ w ∈ v :: path, w ∈ List.range m.flags.length ×ˢ List.range (text.length + 1) := by
  have hv : v ∈ List.range m.flags.length ×ˢ List.range (text.length + 1) :=
    List.mem_product.2 ⟨List.mem_range.2 hstate, List.mem_range.2 (Nat.lt_succ_of_le hposition)⟩
  induction path generalizing v with
  | nil =>
    intro w hw
    rw [List.mem_singleton.1 hw]
    exact hv
  | cons w path ih =>
    rw [List.isChain_cons_cons] at hchain
    obtain ⟨hstep, hchain⟩ := hchain
    have hw := hstep.position_le hposition
    obtain ⟨t, ht, -, hleads⟩ := hstep
    have hlt := hleads.target_lt hm ht
    intro u hu
    rcases List.mem_cons.1 hu with rfl | hu
    · exact hv
    · exact ih hchain hlt hw (List.mem_product.2
        ⟨List.mem_range.2 hlt, List.mem_range.2 (Nat.lt_succ_of_le hw)⟩) u hu

/-- A path that comes to no node twice has at most as many nodes as there are. -/
theorem Machine.Trail.length_le {m : Machine} {text : List Char} (hm : m.Closed)
    {v : Nat × Nat} {path : List (Nat × Nat)} (h : m.Trail text v path)
    (hstate : v.1 < m.flags.length) (hposition : v.2 ≤ text.length) :
    path.length ≤ m.flags.length * (text.length + 1) := by
  obtain ⟨hhead, hchain, hnodup⟩ := h
  rcases path with _ | ⟨w, path⟩
  · exact Nat.zero_le _
  · obtain rfl : w = v := by simpa using hhead
    have hsub := List.subperm_of_subset hnodup
      (Machine.mem_product_of_isChain hm hchain hstate hposition)
    have hle := hsub.length_le
    rwa [List.length_product, List.length_range, List.length_range] at hle

namespace Search

/-! ## Nodes of a search as pairs -/

/-- The node of a pair of a state and a position. -/
def nodeOf (v : Nat × Nat) : Node := ⟨v.1, v.2, v.2 == 0⟩

theorem nodeOf_injective : Function.Injective nodeOf := by
  rintro ⟨q, p⟩ ⟨q', p'⟩ h
  simp only [nodeOf, Node.mk.injEq] at h
  rw [h.1, h.2.1]

/-- The subject of a search is a machine over a text. -/
structure Subject.Presents (s : Subject) (m : Machine) (text : List Char) : Prop where
  text : s.text = text.toArray
  final : ∀ state, s.isFinal state = true ↔ m.IsFinal state
  leaving : ∀ state, s.leaving state = m.leaving state

namespace Subject.Presents

variable {s : Subject} {m : Machine} {text : List Char}

theorem getElem?_text (hs : s.Presents m text) (p : Nat) : s.text[p]? = text[p]? := by
  rw [hs.text, List.getElem?_toArray]

theorem outsideSet?_eq_some_iff (hs : s.Presents m text) (marker : Nat) (c : Char)
    (target : Nat) : s.outsideSet? marker c = some target ↔ m.Outside marker c target := by
  have hcond : (s.isFinal marker ||
      (s.leaving marker).any fun t => decide (t.inputLabel = .ofChar c)) = true ↔
        m.IsFinal marker ∨ ∃ t ∈ m.leaving marker, t.inputLabel = .ofChar c := by
    simp only [Bool.or_eq_true, hs.final, hs.leaving, List.any_eq_true, decide_eq_true_eq]
  unfold outsideSet?
  dsimp only
  refine ⟨?_, ?_⟩
  · intro h
    split at h
    · cases h
    · rename_i hno
      rw [hcond, not_or] at hno
      rw [hs.leaving] at h
      obtain ⟨t, ht, rfl⟩ := Option.map_eq_some_iff.1 h
      exact ⟨hno.1, fun u hu hc => hno.2 ⟨u, hu, hc⟩, t, ht, rfl⟩
  · intro h
    rcases h with ⟨hfinal, hunlisted, t, ht, rfl⟩
    have hno : ¬ (m.IsFinal marker ∨ ∃ t ∈ m.leaving marker, t.inputLabel = .ofChar c) := by
      rintro (h | ⟨u, hu, hc⟩)
      · exact hfinal h
      · exact hunlisted u hu hc
    rw [if_neg (fun h => hno (hcond.1 h)), hs.leaving, ht]
    rfl

/-- A transition leads a node of the search where the graph says. -/
theorem move_eq_some_iff (hs : s.Presents m text) {v : Nat × Nat} (hv : v.2 ≤ text.length)
    (t : Transition) (y : Node) :
    s.move (nodeOf v) t = some y ↔ ∃ w, m.Leads text t v.2 w ∧ y = nodeOf w := by
  obtain ⟨q, p⟩ := v
  dsimp only [nodeOf] at *
  refine ⟨?_, ?_⟩
  · intro h
    unfold move at h
    simp only [hs.getElem?_text] at h
    split at h
    · rename_i hlabel
      cases h
      exact ⟨_, .epsilon p hlabel, rfl⟩
    · rename_i hlabel hend
      cases h
      have hp : p = text.length := Nat.le_antisymm hv (List.getElem?_eq_none_iff.1 hend)
      subst hp
      exact ⟨_, .textEnd hlabel, rfl⟩
    · cases h
    · cases h
    · rename_i hlabel hc
      split at h
      · rename_i hstart
        cases h
        obtain rfl : p = 0 := by simpa using hstart
        exact ⟨_, .textStart hlabel (List.getElem?_eq_some_iff.1 hc).1, rfl⟩
      · cases h
    · rename_i hlabel hc
      cases h
      exact ⟨_, .any p hlabel (List.getElem?_eq_some_iff.1 hc).1, rfl⟩
    · rename_i code c hlabel hc
      split at h
      · rename_i hcode
        cases h
        exact ⟨_, .symbol p c (hcode ▸ hlabel) hc, rfl⟩
      · cases h
    · rename_i c hlabel hc
      obtain ⟨target, htarget, rfl⟩ := Option.map_eq_some_iff.1 h
      exact ⟨_, .outside p c target hlabel hc ((hs.outsideSet?_eq_some_iff _ _ _).1 htarget), rfl⟩
  · intro h
    rcases h with ⟨w, hleads, rfl⟩
    cases hleads with
    | epsilon _ hlabel => simp [move, hlabel]
    | textEnd hlabel => simp [move, hlabel, hs.getElem?_text]
    | textStart hlabel hlt => simp [move, hlabel, hs.getElem?_text, hlt]
    | any _ hlabel hlt => simp [move, hlabel, hs.getElem?_text, hlt]
    | symbol _ c hlabel hc => simp [move, hlabel, hs.getElem?_text, hc]
    | outside _ c target hlabel hc hout =>
      simp [move, hlabel, hs.getElem?_text, hc, (hs.outsideSet?_eq_some_iff _ _ _).2 hout]

theorem next_iff (hs : s.Presents m text) {v : Nat × Nat} (hv : v.2 ≤ text.length) (y : Node) :
    s.Next (nodeOf v) y ↔ ∃ w, m.Moves text v w ∧ y = nodeOf w := by
  refine ⟨?_, ?_⟩
  · intro h
    rcases h with ⟨t, ht, hmove⟩
    obtain ⟨w, hleads, rfl⟩ := (hs.move_eq_some_iff hv t y).1 hmove
    have ht' : t ∈ m.leaving v.1 := hs.leaving v.1 ▸ ht
    obtain ⟨hmem, hsource⟩ := List.mem_filter.1 ht'
    exact ⟨w, ⟨t, hmem, of_decide_eq_true hsource, hleads⟩, rfl⟩
  · intro h
    rcases h with ⟨w, ⟨t, hmem, hsource, hleads⟩, rfl⟩
    refine ⟨t, ?_, (hs.move_eq_some_iff hv t _).2 ⟨w, hleads, rfl⟩⟩
    show t ∈ s.leaving v.1
    rw [hs.leaving]
    exact List.mem_filter.2 ⟨hmem, decide_eq_true hsource⟩

theorem reach_iff (hs : s.Presents m text) {v : Nat × Nat} (hv : v.2 ≤ text.length) (y : Node) :
    s.Reach (nodeOf v) y ↔ ∃ w, ReflTransGen (m.Moves text) v w ∧ y = nodeOf w := by
  refine ⟨?_, ?_⟩
  · intro h
    suffices ∃ w, ReflTransGen (m.Moves text) v w ∧ w.2 ≤ text.length ∧ y = nodeOf w by
      obtain ⟨w, hvw, -, hy⟩ := this
      exact ⟨w, hvw, hy⟩
    induction h with
    | refl => exact ⟨v, .refl, hv, rfl⟩
    | tail _ hyz ih =>
      obtain ⟨w, hvw, hw, rfl⟩ := ih
      obtain ⟨u, hwu, rfl⟩ := (hs.next_iff hw _).1 hyz
      exact ⟨u, hvw.tail hwu, hwu.position_le hw, rfl⟩
  · intro h
    rcases h with ⟨w, hvw, rfl⟩
    induction hvw using ReflTransGen.head_induction_on with
    | refl => exact .refl
    | head hstep _ ih =>
      exact (ih (hstep.position_le hv)).head ((hs.next_iff hv _).2 ⟨_, hstep, rfl⟩)

theorem spans_iff (hs : s.Presents m text) {start : Nat} (hstart : start ≤ text.length)
    (stop : Nat) : s.Spans start stop ↔ m.Accepts text start stop := by
  refine ⟨?_, ?_⟩
  · intro h
    rcases h with ⟨y, hreach, hfinal, rfl⟩
    obtain ⟨w, hw, rfl⟩ := (hs.reach_iff (v := (0, start)) hstart y).1 hreach
    exact ⟨w.1, (hs.final _).1 hfinal, hw⟩
  · intro h
    rcases h with ⟨q, hfinal, hmoves⟩
    exact ⟨nodeOf (q, stop), (hs.reach_iff (v := (0, start)) hstart _).2 ⟨(q, stop), hmoves, rfl⟩,
      (hs.final q).2 hfinal, rfl⟩

/-- What a search goes along are the paths of the graph. -/
theorem isChain_map_nodeOf_iff (hs : s.Presents m text) {v : Nat × Nat} (hv : v.2 ≤ text.length)
    (path : List Node) : (nodeOf v :: path).IsChain s.Next ↔
      ∃ rest, path = rest.map nodeOf ∧ (v :: rest).IsChain (m.Moves text) := by
  induction path generalizing v with
  | nil =>
    refine ⟨?_, ?_⟩
    · intro _
      exact ⟨[], rfl, List.isChain_singleton v⟩
    · intro _
      exact List.isChain_singleton _
  | cons y path ih =>
    rw [List.isChain_cons_cons]
    refine ⟨?_, ?_⟩
    · intro h
      rcases h with ⟨hnext, hchain⟩
      obtain ⟨w, hvw, rfl⟩ := (hs.next_iff hv y).1 hnext
      obtain ⟨rest, rfl, hrest⟩ := (ih (hvw.position_le hv)).1 hchain
      exact ⟨w :: rest, rfl, List.isChain_cons_cons.2 ⟨hvw, hrest⟩⟩
    · intro h
      rcases h with ⟨rest, hpath, hrest⟩
      rcases rest with _ | ⟨w, rest⟩
      · cases hpath
      · rw [List.map_cons, List.cons.injEq] at hpath
        obtain ⟨rfl, rfl⟩ := hpath
        rw [List.isChain_cons_cons] at hrest
        exact ⟨(hs.next_iff hv _).2 ⟨w, hrest.1, rfl⟩,
          (ih (hrest.1.position_le hv)).2 ⟨rest, rfl, hrest.2⟩⟩

theorem deep_iff (hs : s.Presents m text) {start : Nat} (hstart : start ≤ text.length)
    (limit : Nat) : s.Deep limit (startNode start) ↔
      ∃ path, m.Trail text (0, start) path ∧ path.length = limit + 1 := by
  refine ⟨?_, ?_⟩
  · intro h
    rcases h with ⟨path, ⟨hhead, hchain, hnodup, -⟩, hlength⟩
    rcases path with _ | ⟨x, path⟩
    · cases hhead
    · obtain rfl : x = startNode start := by simpa using hhead
      obtain ⟨rest, rfl, hrest⟩ :=
        (hs.isChain_map_nodeOf_iff (v := (0, start)) hstart path).1 hchain
      refine ⟨(0, start) :: rest, ⟨rfl, hrest, ?_⟩, by simpa using hlength⟩
      exact List.Nodup.of_map nodeOf hnodup
  · intro h
    rcases h with ⟨path, ⟨hhead, hchain, hnodup⟩, hlength⟩
    rcases path with _ | ⟨v, path⟩
    · cases hhead
    · obtain rfl : v = (0, start) := by simpa using hhead
      refine ⟨((0, start) :: path).map nodeOf, ⟨rfl, ?_, ?_, by simp⟩, by simpa using hlength⟩
      · exact (hs.isChain_map_nodeOf_iff hstart _).2 ⟨path, rfl, hchain⟩
      · exact hnodup.map nodeOf_injective

end Subject.Presents

end Search

end WeightedAutomata
