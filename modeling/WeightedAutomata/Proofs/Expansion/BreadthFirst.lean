-- The order in which an expansion numbers its states. It is the order of a breadth-first search
-- with a queue, which visits one origin after another and meets whatever their transitions lead
-- to. Such a search comes to an end, and it meets just the origins that can be reached.
import Mathlib.Data.Finset.Card
import Mathlib.Data.Finset.Dedup
import Mathlib.Logic.Equiv.Basic
import WeightedAutomata.Proofs.Expansion.Units

namespace WeightedAutomata

open Relation Expansion

/-! ## The search -/

/-- The origins that the transitions of a state lead to, in the order of the table. -/
def Machine.successors (m : Machine) (o : Origin) : List Origin := (m.leaving o.state).map .of

/-- The least set with the start and, for each of its origins, those that are led to from it. -/
inductive Machine.Reaches (m : Machine) : Origin → Prop
  | start : Reaches m .start
  | next {o o' : Origin} : Reaches m o → o' ∈ m.successors o → Reaches m o'

/-- The origins of a list that were not met before, each in its first place. -/
def Expansion.fresh (met : List Origin) : List Origin → List Origin
  | [] => []
  | o :: os => if o ∈ met then fresh met os else o :: fresh (met ++ [o]) os

/-- One step of a search: the first origin of the queue is visited, and what it leads to is met.
A search has the origins met so far, in order, and the queue of those not visited yet. -/
inductive Machine.Visits (m : Machine) :
    List Origin × List Origin → List Origin × List Origin → Prop
  | visit (met queue : List Origin) (o : Origin) :
      Visits m (met, o :: queue)
        (met ++ fresh met (m.successors o), queue ++ fresh met (m.successors o))

/-- The search from the start ends, and has met these origins in this order. -/
def Machine.MeetsInOrder (m : Machine) (origins : List Origin) : Prop :=
  ReflTransGen m.Visits ([.start], [.start]) (origins, [])

/-! ## What is fresh -/

namespace Expansion

variable {met os : List Origin} {o : Origin}

theorem mem_fresh_iff : o ∈ fresh met os ↔ o ∈ os ∧ o ∉ met := by
  induction os generalizing met with
  | nil => simp [fresh]
  | cons o' os ih =>
    unfold fresh
    by_cases h : o' ∈ met
    · rw [if_pos h, ih, List.mem_cons]
      refine and_congr_left fun hnot => ?_
      rw [or_iff_right]
      rintro rfl
      exact hnot h
    · rw [if_neg h, List.mem_cons, ih, List.mem_cons, List.mem_append, List.mem_singleton]
      by_cases heq : o = o'
      · subst heq
        simp [h]
      · simp [heq]

theorem nodup_fresh (met os : List Origin) : (fresh met os).Nodup := by
  induction os generalizing met with
  | nil => exact List.nodup_nil
  | cons o os ih =>
    unfold fresh
    by_cases h : o ∈ met
    · rw [if_pos h]
      exact ih met
    · rw [if_neg h, List.nodup_cons]
      refine ⟨?_, ih _⟩
      simp [mem_fresh_iff]

theorem fresh_cons (met os : List Origin) (o : Origin) :
    fresh met (o :: os) = fresh met [o] ++ fresh (met ++ fresh met [o]) os := by
  by_cases h : o ∈ met <;> simp [fresh, h]

/-- What is fresh stays so under new names, if no two origins get the same. -/
theorem fresh_map {f : Origin → Origin} {origins : List Origin}
    (hf : Set.InjOn f {o | o ∈ origins}) (hmet : met ⊆ origins) (hos : os ⊆ origins) :
    fresh (met.map f) (os.map f) = (fresh met os).map f := by
  induction os generalizing met with
  | nil => rfl
  | cons o os ih =>
    obtain ⟨ho, hrest⟩ := List.cons_subset.1 hos
    have hiff : f o ∈ met.map f ↔ o ∈ met := by
      refine ⟨fun h => ?_, List.mem_map_of_mem⟩
      obtain ⟨o', ho', heq⟩ := List.mem_map.1 h
      exact hf (hmet ho') ho heq ▸ ho'
    rw [List.map_cons]
    unfold fresh
    by_cases h : o ∈ met
    · rw [if_pos h, if_pos (hiff.2 h)]
      exact ih hmet hrest
    · have hmore : met ++ [o] ⊆ origins :=
        List.append_subset.2 ⟨hmet, by simpa using ho⟩
      rw [if_neg h, if_neg (mt hiff.1 h), List.map_cons, ← ih hmore hrest, List.map_append]
      rfl

end Expansion

namespace Machine

variable {m : Machine} {met met' queue origins : List Origin} {o : Origin}
  {v w : List Origin × List Origin}

/-! ## Searches end -/

theorem mem_successors_iff {o' : Origin} :
    o' ∈ m.successors o ↔ ∃ t ∈ m.leaving o.state, Origin.of t = o' := List.mem_map

theorem successors_subset (m : Machine) (o : Origin) :
    m.successors o ⊆ m.transitions.map Origin.of := by
  intro o' ho'
  obtain ⟨t, ht, rfl⟩ := mem_successors_iff.1 ho'
  exact List.mem_map_of_mem (List.mem_filter.1 ht).1

/-- The origins that transitions lead to and that were not met. -/
def unmet (m : Machine) (met : List Origin) : Finset Origin :=
  (m.transitions.map Origin.of).toFinset \ met.toFinset

theorem card_unmet_append (m : Machine) (met : List Origin) (o : Origin) :
    (m.unmet (met ++ fresh met (m.successors o))).card + (fresh met (m.successors o)).length =
      (m.unmet met).card := by
  have hsub : (fresh met (m.successors o)).toFinset ⊆ m.unmet met := by
    intro o' ho'
    rw [List.mem_toFinset, mem_fresh_iff] at ho'
    simp only [unmet, Finset.mem_sdiff, List.mem_toFinset]
    exact ⟨m.successors_subset o ho'.1, ho'.2⟩
  have hunmet : m.unmet (met ++ fresh met (m.successors o)) =
      m.unmet met \ (fresh met (m.successors o)).toFinset := by
    unfold unmet
    rw [List.toFinset_append]
    exact sdiff_sdiff_left.symm
  have hcard := Finset.card_sdiff_add_card_eq_card hsub
  rwa [List.toFinset_card_of_nodup (nodup_fresh _ _), ← hunmet] at hcard

/-- Each visit shortens the queue, or there are fewer origins to meet: no search goes on for
ever. -/
theorem visits_wellFounded (m : Machine) : WellFounded fun w v => m.Visits v w := by
  refine Subrelation.wf ?_ (InvImage.wf (fun v : List Origin × List Origin =>
    2 * (m.unmet v.1).card + v.2.length) Nat.lt_wfRel.wf)
  rintro w v ⟨met, queue, o⟩
  have hcard := m.card_unmet_append met o
  simp only [InvImage, List.length_append, List.length_cons]
  show _ < _
  omega

theorem rightUnique_visits (m : Machine) : Relator.RightUnique m.Visits := by
  rintro v w w' ⟨met, queue, o⟩ ⟨_, _, _⟩
  rfl

/-- The search has one end only. -/
theorem MeetsInOrder.unique (h : m.MeetsInOrder met) (h' : m.MeetsInOrder met') : met = met' := by
  have hend : ∀ {met met' : List Origin}, ReflTransGen m.Visits (met, []) (met', []) →
      met = met' := by
    intro met met' hvisits
    rcases hvisits.cases_head with heq | ⟨_, ⟨⟩, _⟩
    exact (Prod.mk.inj heq).1
  rcases ReflTransGen.total_of_right_unique m.rightUnique_visits h h' with hvisits | hvisits
  · exact hend hvisits
  · exact (hend hvisits).symm

/-! ## What is met -/

/-- Of the origins met so far, all can be reached, and those that were visited lead to others of
them. -/
structure Searched (m : Machine) (v : List Origin × List Origin) : Prop where
  start : .start ∈ v.1
  queued : v.2 ⊆ v.1
  reached : ∀ o ∈ v.1, m.Reaches o
  closed : ∀ o ∈ v.1, o ∈ v.2 ∨ m.successors o ⊆ v.1

theorem searched_start (m : Machine) : m.Searched ([.start], [.start]) where
  start := List.mem_singleton_self _
  queued := fun _ ho => ho
  reached := by
    intro o ho
    rw [List.mem_singleton.1 ho]
    exact .start
  closed := fun _ ho => Or.inl ho

theorem Searched.visits (h : m.Searched v) (hvisits : m.Visits v w) : m.Searched w := by
  obtain ⟨hstart, hqueued, hreached, hclosed⟩ := h
  obtain ⟨met, queue, o⟩ := hvisits
  obtain ⟨ho, hqueue⟩ := List.cons_subset.1 hqueued
  have hall : m.successors o ⊆ met ++ fresh met (m.successors o) := by
    intro o' ho'
    rw [List.mem_append, mem_fresh_iff]
    by_cases hmet : o' ∈ met
    · exact Or.inl hmet
    · exact Or.inr ⟨ho', hmet⟩
  refine ⟨List.mem_append_left _ hstart, ?_, ?_, ?_⟩
  · exact List.append_subset.2
      ⟨fun o' ho' => List.mem_append_left _ (hqueue ho'), List.subset_append_right _ _⟩
  · intro o' ho'
    rcases List.mem_append.1 ho' with ho' | ho'
    · exact hreached o' ho'
    · exact (hreached o ho).next (mem_fresh_iff.1 ho').1
  · intro o' ho'
    rcases List.mem_append.1 ho' with ho' | ho'
    · rcases hclosed o' ho' with hfirst | hsub
      · rcases List.mem_cons.1 hfirst with rfl | hlater
        · exact Or.inr hall
        · exact Or.inl (List.mem_append_left _ hlater)
      · exact Or.inr fun o'' ho'' => List.mem_append_left _ (hsub ho'')
    · exact Or.inl (List.mem_append_right _ ho')

theorem searched_of_visits (h : ReflTransGen m.Visits ([.start], [.start]) v) : m.Searched v := by
  induction h with
  | refl => exact m.searched_start
  | tail _ hvisits ih => exact ih.visits hvisits

/-- A search that has ended has met what can be reached. -/
theorem MeetsInOrder.mem_iff (h : m.MeetsInOrder origins) : o ∈ origins ↔ m.Reaches o := by
  obtain ⟨hstart, -, hreached, hclosed⟩ := searched_of_visits h
  refine ⟨hreached o, fun ho => ?_⟩
  induction ho with
  | start => exact hstart
  | next _ ho' ih =>
    rcases hclosed _ ih with hqueued | hsub
    · cases hqueued
    · exact hsub ho'

/-- Whatever a search meets behind the start is led to from something it met before. -/
theorem exists_lead_of_visits (h : ReflTransGen m.Visits ([.start], [.start]) v) {n : Nat}
    (hn : 0 < n) (ho : v.1[n]? = some o) :
    ∃ k < n, ∃ o', v.1[k]? = some o' ∧ o ∈ m.successors o' := by
  induction h with
  | refl =>
    rw [List.getElem?_eq_none (Nat.succ_le_of_lt hn)] at ho
    cases ho
  | tail hbefore hvisits ih =>
    have hqueued := (searched_of_visits hbefore).queued
    obtain ⟨met, queue, visited⟩ := hvisits
    rcases Nat.lt_or_ge n met.length with hlt | hge
    · rw [List.getElem?_append_left hlt] at ho
      obtain ⟨k, hk, o', ho', hleads⟩ := ih ho
      refine ⟨k, hk, o', ?_, hleads⟩
      rw [List.getElem?_append_left (hk.trans hlt)]
      exact ho'
    · -- It is met in this step, where an origin is visited that was met before.
      rw [List.getElem?_append_right hge] at ho
      obtain ⟨k, hk⟩ := List.getElem?_of_mem (hqueued List.mem_cons_self)
      have hlt : k < met.length := (List.getElem?_eq_some_iff.1 hk).1
      refine ⟨k, by omega, visited, ?_, (mem_fresh_iff.1 (List.mem_of_getElem? ho)).1⟩
      rw [List.getElem?_append_left hlt]
      exact hk

/-! ## The scan is such a search -/

variable {scan : Scan} {index : TransitionIndex} {source : Nat}

theorem origins_follow (h : scan.Numbered) (t : Transition) :
    (scan.follow source t).origins.toList =
      scan.origins.toList ++ fresh scan.origins.toList [.of t] := by
  unfold Scan.follow Scan.number
  cases hn : scan.numbers[Origin.of t]? with
  | some n =>
    have hmem : Origin.of t ∈ scan.origins.toList := List.mem_of_getElem? ((h _ n).1 hn)
    simp [fresh, hmem]
  | none =>
    have hmem : Origin.of t ∉ scan.origins.toList := by
      intro hmem
      obtain ⟨n, hplace⟩ := List.getElem?_of_mem hmem
      rw [(h _ n).2 hplace] at hn
      cases hn
    simp [fresh, hmem]

theorem origins_foldl (h : scan.Numbered) (ts : List Transition) :
    (ts.foldl (Scan.follow source) scan).origins.toList =
      scan.origins.toList ++ fresh scan.origins.toList (ts.map .of) := by
  induction ts generalizing scan with
  | nil => simp [fresh]
  | cons t ts ih =>
    have hdraws : Scan.Draws source [t] scan (scan.follow source t) := Scan.draws_follow h t
    rw [List.foldl_cons, ih hdraws.numbered, origins_follow h, List.map_cons,
      fresh_cons _ (ts.map .of), List.append_assoc]

/-- What a scan has not visited is the queue. -/
theorem visits_scan (hindex : ∀ state, index.transitions state = m.leaving state) (count : Nat) :
    ReflTransGen m.Visits ([.start], [.start])
      (((List.range count).foldl (Scan.visit index) .start).origins.toList,
        ((List.range count).foldl (Scan.visit index) .start).origins.toList.drop count) := by
  induction count with
  | zero => exact .refl
  | succ count ih =>
    have hvisited := Scan.visited_foldl hindex count
    rw [List.range_succ, List.foldl_append, List.foldl_cons, List.foldl_nil]
    generalize (List.range count).foldl (Scan.visit index) .start = scan at *
    unfold Scan.visit
    rw [← Array.getElem?_toList]
    cases ho : scan.origins.toList[count]? with
    | none =>
      have hlength : scan.origins.toList.length ≤ count := List.getElem?_eq_none_iff.1 ho
      rw [List.drop_eq_nil_of_le hlength] at ih
      dsimp only
      rw [List.drop_eq_nil_of_le (Nat.le_succ_of_le hlength)]
      exact ih
    | some o =>
      obtain ⟨hlt, heq⟩ := List.getElem?_eq_some_iff.1 ho
      rw [List.drop_eq_getElem_cons hlt, heq] at ih
      dsimp only
      rw [origins_foldl hvisited.numbered, hindex, List.drop_append_of_le_length hlt]
      exact ih.tail (.visit _ _ o)

/-- The scan meets the origins in the order of the search. -/
theorem meetsInOrder_scan (hm : m.Closed) : m.MeetsInOrder (Expansion.scan m).origins.toList := by
  have hends : ∀ t ∈ m.transitions, t.endAt .outgoing < m.flags.length := fun t ht => (hm t ht).1
  have hindex : ∀ state, (TransitionIndex.ofTransitions m.flags.length m.transitions
      .outgoing).transitions state = m.leaving state :=
    TransitionIndex.transitions_ofTransitions hends
  have hvisits := visits_scan hindex (m.transitions.length + 1)
  have hlength : (Expansion.scan m).origins.toList.length ≤ m.transitions.length + 1 :=
    (visited_scan hm).length_le
  unfold Expansion.scan at hlength
  rw [List.drop_eq_nil_of_le hlength] at hvisits
  exact hvisits

end Machine

end WeightedAutomata
