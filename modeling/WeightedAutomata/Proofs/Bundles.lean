-- What the bundles of an index hold. The bundle of a state is the part of the table whose
-- end that counts is the state, in the order of the table.
import WeightedAutomata.TransitionIndex

namespace WeightedAutomata

namespace TransitionIndex

/-! ## One bundle after another transition -/

theorem size_foldr_add (direction : Direction) (entries : List (Nat × Transition))
    (bundles : Array (List (Nat × Transition))) :
    (entries.foldr (add direction) bundles).size = bundles.size := by
  induction entries with
  | nil => rfl
  | cons entry entries ih => simp [add, ih]

theorem getElem?_add (direction : Direction) (entry : Nat × Transition)
    (bundles : Array (List (Nat × Transition))) (state : Nat)
    (h : entry.2.endAt direction < bundles.size) :
    (add direction entry bundles)[state]?.getD [] =
      if entry.2.endAt direction = state then entry :: bundles[state]?.getD []
      else bundles[state]?.getD [] := by
  unfold add
  rw [Array.getElem?_modify]
  split
  · rename_i hstate
    subst hstate
    rw [Array.getElem?_eq_getElem h]
    rfl
  · rfl

/-! ## Whole bundles -/

variable {stateCount : Nat} {ts : List Transition} {direction : Direction}

theorem bundle_ofTransitions (h : ∀ t ∈ ts, t.endAt direction < stateCount) (state : Nat) :
    (ofTransitions stateCount ts direction).bundle state =
      (ts.zipIdx.map fun (t, number) => (number, t)).filter
        fun entry => entry.2.endAt direction = state := by
  have hends : ∀ entry ∈ ts.zipIdx.map fun (t, number) => (number, t),
      entry.2.endAt direction < stateCount := by
    intro entry hentry
    obtain ⟨⟨t, number⟩, ht, rfl⟩ := List.mem_map.1 hentry
    exact h t (List.fst_mem_of_mem_zipIdx ht)
  unfold bundle ofTransitions
  generalize ts.zipIdx.map (fun (t, number) => (number, t)) = entries at *
  induction entries with
  | nil =>
    by_cases hstate : state < stateCount
    · simp [hstate]
    · simp [Nat.le_of_not_lt hstate]
  | cons entry entries ih =>
    have hentry : entry.2.endAt direction <
        (entries.foldr (add direction) (Array.replicate stateCount [])).size := by
      rw [size_foldr_add, Array.size_replicate]
      exact hends entry List.mem_cons_self
    rw [List.foldr_cons, getElem?_add _ _ _ _ hentry,
      ih fun e he => hends e (List.mem_cons_of_mem _ he), List.filter_cons]
    simp only [decide_eq_true_eq]

/-- The transitions at a state, in the order of the table. -/
theorem transitions_ofTransitions (h : ∀ t ∈ ts, t.endAt direction < stateCount) (state : Nat) :
    (ofTransitions stateCount ts direction).transitions state =
      ts.filter fun t => t.endAt direction = state := by
  have hmap : (ts.zipIdx.map fun (t, number) => (number, t)).map (·.2) = ts := by
    rw [List.map_map]
    exact List.zipIdx_map_fst 0 ts
  unfold transitions
  rw [bundle_ofTransitions h]
  conv => rhs; rw [← hmap, List.filter_map]
  rfl

end TransitionIndex

end WeightedAutomata
