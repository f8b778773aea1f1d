-- What the scan of origins comes to. It numbers the origins as it meets them, each of them once,
-- and draws the transitions of one after the other. A number that was given stays, so that what
-- was drawn early can be read with the numbers of the end.
import Mathlib.Data.List.Nodup
import Mathlib.Data.List.Perm.Subperm
import WeightedAutomata.Expansion
import WeightedAutomata.Proofs.Moves

namespace WeightedAutomata

namespace Expansion

/-! ## Numbering origins -/

/-- The transition of an expansion that leaves state `source` where `t` leaves its origin. The
number of an origin is its place. -/
def image (origins : List Origin) (source : Nat) (t : Transition) : Transition :=
  { t with source, target := origins.idxOf (.of t) }

/-- The images of the transitions that leave the first `count` origins, in order. -/
def images (m : Machine) (origins : List Origin) (count : Nat) : List Transition :=
  (origins.take count).zipIdx.flatMap fun (o, k) => (m.leaving o.state).map (image origins k)

/-- Every origin met so far has its place as its number, and no other origin has one. -/
def Scan.Numbered (scan : Scan) : Prop :=
  ∀ (o : Origin) (n : Nat), scan.numbers[o]? = some n ↔ scan.origins.toList[n]? = some o

theorem image_of_prefix {origins origins' : List Origin} (hgrows : origins <+: origins')
    {t : Transition} (ht : Origin.of t ∈ origins) (source : Nat) :
    image origins' source t = image origins source t := by
  obtain ⟨more, rfl⟩ := hgrows
  unfold image
  rw [List.idxOf_append_of_mem ht]

/-- What a step of the scan does that draws transitions from state `source`. -/
structure Scan.Draws (source : Nat) (ts : List Transition) (scan scan' : Scan) : Prop where
  numbered : scan'.Numbered
  grows : scan.origins.toList <+: scan'.origins.toList
  met : ∀ t ∈ ts, Origin.of t ∈ scan'.origins.toList
  added : ∀ o ∈ scan'.origins.toList, o ∈ scan.origins.toList ∨ ∃ t ∈ ts, o = .of t
  transitions : scan'.transitions.toList =
    scan.transitions.toList ++ ts.map (image scan'.origins.toList source)

namespace Scan

variable {scan scan' scan'' : Scan} {source : Nat} {ts ts' : List Transition}

theorem Numbered.nodup (h : scan.Numbered) : scan.origins.toList.Nodup := by
  rw [List.nodup_iff_getElem?_ne_getElem?]
  intro i j hij hj heq
  obtain ⟨o, ho⟩ : ∃ o, scan.origins.toList[j]? = some o := ⟨_, List.getElem?_eq_getElem hj⟩
  have hi := (h o i).2 (heq.trans ho)
  rw [(h o j).2 ho, Option.some.injEq] at hi
  omega

theorem Numbered.idxOf (h : scan.Numbered) {o : Origin} {n : Nat}
    (hn : scan.origins.toList[n]? = some o) : scan.origins.toList.idxOf o = n := by
  obtain ⟨hlt, rfl⟩ := List.getElem?_eq_some_iff.1 hn
  exact h.nodup.idxOf_getElem n hlt

theorem numbered_start : start.Numbered := by
  intro o n
  unfold start
  rw [Std.HashMap.getElem?_insert, Std.HashMap.getElem?_emptyWithCapacity, List.getElem?_singleton]
  by_cases ho : Origin.start = o
  · subst ho
    simp [eq_comm]
  · simp [ho]

theorem Draws.refl (h : scan.Numbered) : Draws source [] scan scan where
  numbered := h
  grows := List.prefix_rfl
  met := by simp
  added := fun _ ho => Or.inl ho
  transitions := by simp

theorem Draws.trans (h : Draws source ts scan scan') (h' : Draws source ts' scan' scan'') :
    Draws source (ts ++ ts') scan scan'' where
  numbered := h'.numbered
  grows := h.grows.trans h'.grows
  met := by
    intro t ht
    rcases List.mem_append.1 ht with ht | ht
    · exact h'.grows.subset (h.met t ht)
    · exact h'.met t ht
  added := by
    intro o ho
    rcases h'.added o ho with ho | ⟨t, ht, rfl⟩
    · rcases h.added o ho with ho | ⟨t, ht, rfl⟩
      · exact Or.inl ho
      · exact Or.inr ⟨t, List.mem_append_left _ ht, rfl⟩
    · exact Or.inr ⟨t, List.mem_append_right _ ht, rfl⟩
  transitions := by
    have hstay : ts.map (image scan''.origins.toList source) =
        ts.map (image scan'.origins.toList source) :=
      List.map_congr_left fun t ht => image_of_prefix h'.grows (h.met t ht) source
    rw [h'.transitions, h.transitions, List.map_append, hstay, List.append_assoc]

/-- An origin that has no number takes the next one. -/
theorem Numbered.push (h : scan.Numbered) {o : Origin} (hnone : scan.numbers[o]? = none)
    (transitions : Array Transition) : Numbered
      ⟨scan.origins.push o, scan.numbers.insert o scan.origins.size, transitions⟩ := by
  intro o' n
  have hsize : scan.origins.toList.length = scan.origins.size := Array.length_toList
  dsimp only
  rw [Std.HashMap.getElem?_insert, Array.toList_push, List.getElem?_append, hsize]
  by_cases ho : o = o'
  · subst ho
    have hnot : ∀ n : Nat, scan.origins.toList[n]? ≠ some o := by
      intro n hn
      rw [(h o n).2 hn] at hnone
      cases hnone
    rw [if_pos (beq_self_eq_true o), Option.some.injEq]
    split
    · simp only [hnot n, iff_false]
      omega
    · rw [List.getElem?_singleton]
      split
      · simp only [iff_true]
        omega
      · simp only [reduceCtorEq, iff_false]
        omega
  · rw [if_neg (by simpa using ho), h o' n]
    split
    · rfl
    · rw [List.getElem?_eq_none (by omega), List.getElem?_singleton]
      split
      · simp [ho]
      · rfl

theorem draws_follow (h : scan.Numbered) (t : Transition) :
    Draws source [t] scan (follow source scan t) := by
  rcases hn : scan.numbers[Origin.of t]? with _ | n
  · have hnumbered :=
      h.push hn (scan.transitions.push { t with source, target := scan.origins.size })
    have hplace : (scan.origins.push (.of t)).toList[scan.origins.size]? = some (.of t) := by simp
    have hidx := hnumbered.idxOf hplace
    simp only [follow, number, hn]
    refine ⟨hnumbered, ?_, ?_, ?_, ?_⟩
    · exact ⟨[.of t], (Array.toList_push ..).symm⟩
    · intro u hu
      rw [List.mem_singleton.1 hu]
      exact List.mem_of_getElem? hplace
    · intro o ho
      rw [Array.toList_push, List.mem_append, List.mem_singleton] at ho
      exact ho.imp_right fun ho => ⟨t, List.mem_singleton_self t, ho⟩
    · rw [List.map_singleton, image, hidx]
      exact Array.toList_push ..
  · have hplace := (h _ n).1 hn
    simp only [follow, number, hn]
    refine ⟨h, List.prefix_rfl, ?_, fun _ ho => Or.inl ho, ?_⟩
    · intro u hu
      rw [List.mem_singleton.1 hu]
      exact List.mem_of_getElem? hplace
    · simp only [Array.toList_push, List.map_singleton, image, h.idxOf hplace]

theorem draws_foldl (h : scan.Numbered) (ts : List Transition) :
    Draws source ts scan (ts.foldl (follow source) scan) := by
  induction ts generalizing scan with
  | nil => exact .refl h
  | cons t ts ih =>
    have hfollow : Draws source [t] scan (follow source scan t) := draws_follow h t
    exact hfollow.trans (ih hfollow.numbered)

/-! ## Visiting one origin after another -/

/-- A scan that has visited the first `count` origins, as far as there are so many. -/
structure Visited (m : Machine) (count : Nat) (scan : Scan) : Prop where
  numbered : scan.Numbered
  first : scan.origins.toList.head? = some .start
  met : ∀ o ∈ scan.origins.toList.take count, ∀ t ∈ m.leaving o.state,
    Origin.of t ∈ scan.origins.toList
  entered : ∀ o ∈ scan.origins.toList, o = .start ∨ ∃ t ∈ m.transitions, o = .of t
  transitions : scan.transitions.toList = images m scan.origins.toList count

variable {m : Machine} {count : Nat} {index : TransitionIndex}

theorem images_of_prefix {origins origins' : List Origin} (hgrows : origins <+: origins')
    (hcount : count ≤ origins.length)
    (hmet : ∀ o ∈ origins.take count, ∀ t ∈ m.leaving o.state, Origin.of t ∈ origins) :
    images m origins' count = images m origins count := by
  have htake : origins'.take count = origins.take count := by
    obtain ⟨more, rfl⟩ := hgrows
    exact List.take_append_of_le_length hcount
  unfold images
  rw [htake]
  refine List.flatMap_congr fun ⟨o, k⟩ ho => List.map_congr_left fun t ht => ?_
  exact image_of_prefix hgrows (hmet o (List.fst_mem_of_mem_zipIdx ho) t ht) k

theorem images_succ {origins : List Origin} {o : Origin} (h : origins[count]? = some o) :
    images m origins (count + 1) =
      images m origins count ++ (m.leaving o.state).map (image origins count) := by
  have hlt : count < origins.length := (List.getElem?_eq_some_iff.1 h).1
  unfold images
  rw [List.take_add_one, h, List.zipIdx_append, List.flatMap_append, List.length_take,
    Nat.min_eq_left (Nat.le_of_lt hlt), Nat.zero_add]
  simp

theorem visited_start : Visited m 0 start where
  numbered := numbered_start
  first := rfl
  met := by simp
  entered := by simp [start]
  transitions := by simp [start, images]

theorem Visited.visit (h : Visited m count scan)
    (hindex : ∀ state, index.transitions state = m.leaving state) :
    Visited m (count + 1) (scan.visit index count) := by
  unfold Scan.visit
  rw [← Array.getElem?_toList]
  split
  · rename_i hnone
    have hlength : scan.origins.toList.length ≤ count := List.getElem?_eq_none_iff.1 hnone
    refine ⟨h.numbered, h.first, ?_, h.entered, ?_⟩
    · have hmet := h.met
      rw [List.take_of_length_le hlength] at hmet
      rw [List.take_of_length_le (by omega)]
      exact hmet
    · rw [h.transitions]
      unfold images
      rw [List.take_of_length_le hlength, List.take_of_length_le (by omega)]
  · rename_i o ho
    have hlt : count < scan.origins.toList.length := (List.getElem?_eq_some_iff.1 ho).1
    have hdraws : Draws count (m.leaving o.state) scan
        ((m.leaving o.state).foldl (follow count) scan) := draws_foldl h.numbered _
    rw [hindex]
    obtain ⟨more, hmore⟩ := hdraws.grows
    have ho' : ((m.leaving o.state).foldl (follow count) scan).origins.toList[count]? = some o := by
      rw [← hmore, List.getElem?_append_left hlt, ho]
    refine ⟨hdraws.numbered, ?_, ?_, ?_, ?_⟩
    · rw [← hmore, List.head?_append, h.first]
      rfl
    · rw [List.take_add_one, ho', ← hmore, List.take_append_of_le_length (Nat.le_of_lt hlt), hmore]
      intro o' ho'' t ht
      rcases List.mem_append.1 ho'' with ho'' | ho''
      · exact hdraws.grows.subset (h.met o' ho'' t ht)
      · rw [List.mem_singleton.1 ho''] at ht
        exact hdraws.met t ht
    · intro o' ho''
      rcases hdraws.added o' ho'' with ho'' | ⟨t, ht, rfl⟩
      · exact h.entered o' ho''
      · exact Or.inr ⟨t, (List.mem_filter.1 ht).1, rfl⟩
    · rw [hdraws.transitions, h.transitions, images_succ ho',
        images_of_prefix hdraws.grows (Nat.le_of_lt hlt) h.met]

theorem visited_foldl (hindex : ∀ state, index.transitions state = m.leaving state) (count : Nat) :
    Visited m count ((List.range count).foldl (Scan.visit index) start) := by
  induction count with
  | zero => exact visited_start
  | succ count ih =>
    rw [List.range_succ, List.foldl_append]
    exact ih.visit hindex

/-- Each origin but the start is met through a transition of its own. -/
theorem Visited.length_le (h : Visited m count scan) :
    scan.origins.toList.length ≤ m.transitions.length + 1 := by
  have hsub : scan.origins.toList ⊆ .start :: m.transitions.map Origin.of := by
    intro o ho
    rcases h.entered o ho with rfl | ⟨t, ht, rfl⟩
    · exact List.mem_cons_self
    · exact List.mem_cons_of_mem _ (List.mem_map_of_mem ht)
  have hle := h.numbered.nodup.length_le_of_subset hsub
  rwa [List.length_cons, List.length_map] at hle

end Scan

theorem visited_scan {m : Machine} (hm : m.Closed) :
    (scan m).Visited m (m.transitions.length + 1) := by
  apply Scan.visited_foldl
  exact TransitionIndex.transitions_ofTransitions fun t ht => (hm t ht).1

end Expansion

/-! ## The expansion of a machine -/

open Expansion

/-- State `k` of an expansion stands for state `s`. -/
def Expansion.StandsFor (origins : List Origin) (k s : Nat) : Prop :=
  ∃ o, origins[k]? = some o ∧ o.state = s

/-- A machine whose states are those of `m` split by origins. State `k` stands for the origin in
place `k`, is left as its state is left, and has its flag byte. -/
structure Machine.Splits (m : Machine) (origins : List Origin) (m' : Machine) : Prop where
  name : m'.name = m.name
  first : origins.head? = some .start
  nodup : origins.Nodup
  within : ∀ o ∈ origins, o.state < m.flags.length
  met : ∀ o ∈ origins, ∀ t ∈ m.leaving o.state, Origin.of t ∈ origins
  flags : m'.flags = origins.map fun o => m.flags[o.state]?.getD 0
  transitions : m'.transitions = images m origins origins.length

namespace Machine

variable {m m' : Machine} {origins : List Origin} {k s : Nat} {o : Origin}

/-- A closed machine with a start has an expansion, which splits its states by the origins that
the scan has met. -/
theorem splits_scan (hm : m.Closed) (hstates : m.flags ≠ []) :
    ∃ m', m.expand = .ok m' ∧ m.Splits (scan m).origins.toList m' := by
  obtain ⟨hnumbered, hfirst, hmet, hentered, htransitions⟩ := visited_scan hm
  have hlength := (visited_scan hm).length_le
  have hwithin : ∀ o ∈ (scan m).origins.toList, o.state < m.flags.length := by
    intro o ho
    rcases hentered o ho with rfl | ⟨t, ht, rfl⟩
    · exact List.length_pos_iff.2 hstates
    · exact (hm t ht).2
  rw [List.take_of_length_le hlength] at hmet
  refine ⟨{ m with
      flags := (scan m).origins.toList.map fun origin => m.flags[origin.state]?.getD 0
      transitions := (scan m).transitions.toList },
    ?_, ⟨rfl, hfirst, hnumbered.nodup, hwithin, hmet, rfl, ?_⟩⟩
  · have hall : (scan m).origins.all (fun origin => decide (origin.state < m.flags.toArray.size)) =
        true := by
      rw [Array.all_eq_true_iff_forall_mem]
      simpa using hwithin
    unfold expand
    rw [if_neg (by simpa using hstates), if_pos hall]
    simp only [List.getElem?_toArray]
  · simp only [htransitions, images, List.take_of_length_le hlength, List.take_length]

theorem exists_expand (hm : m.Closed) (hstates : m.flags ≠ []) :
    ∃ origins m', m.expand = .ok m' ∧ m.Splits origins m' := ⟨_, splits_scan hm hstates⟩

theorem flatMap_zipIdx_of_getElem? {α β : Type} {l : List α} {x : α} {f : α × Nat → List β}
    (start k : Nat) (h : l[k]? = some x) (hf : ∀ y i, i ≠ start + k → f (y, i) = []) :
    (l.zipIdx start).flatMap f = f (x, start + k) := by
  induction l generalizing start k with
  | nil => cases h
  | cons y l ih =>
    rw [List.zipIdx_cons, List.flatMap_cons]
    cases k with
    | zero =>
      obtain rfl : y = x := by simpa using h
      have hrest : (l.zipIdx (start + 1)).flatMap f = [] := by
        rw [List.flatMap_eq_nil_iff]
        rintro ⟨z, i⟩ hz
        have hle := List.le_snd_of_mem_zipIdx hz
        exact hf z i (by omega)
      rw [hrest, List.append_nil, Nat.add_zero]
    | succ k =>
      have hrest := ih (start + 1) k h fun z i hi => hf z i (by omega)
      rw [hf y start (by omega), hrest, List.nil_append, Nat.add_right_comm, Nat.add_assoc]

namespace Splits

theorem length_flags (h : m.Splits origins m') : m'.flags.length = origins.length := by
  rw [h.flags, List.length_map]

theorem getElem?_flags (h : m.Splits origins m') (hk : origins[k]? = some o) :
    m'.flags[k]? = m.flags[o.state]? := by
  have hlt := h.within o (List.mem_of_getElem? hk)
  rw [h.flags, List.getElem?_map, hk, Option.map_some, List.getElem?_eq_getElem hlt]
  rfl

/-- A state of the expansion is left by the images of what leaves its origin, in order. -/
theorem leaving (h : m.Splits origins m') (hk : origins[k]? = some o) :
    m'.leaving k = (m.leaving o.state).map (image origins k) := by
  have hsame : ∀ i, (fun t => decide (t.source = k)) ∘ image origins i =
      fun _ => decide (i = k) := fun _ => rfl
  unfold Machine.leaving
  rw [h.transitions, images, List.take_length, List.filter_flatMap,
    flatMap_zipIdx_of_getElem? 0 k hk]
  · rw [Nat.zero_add, List.filter_map, hsame]
    simp [Machine.leaving]
  · intro o' i hi
    rw [List.filter_map, hsame]
    simp [show i ≠ k by omega]

/-- The image of a transition leads to the origin that the transition leads to. -/
theorem getElem?_target (h : m.Splits origins m') (hk : origins[k]? = some o) {t : Transition}
    (ht : t ∈ m.leaving o.state) : origins[(image origins k t).target]? = some (.of t) :=
  List.getElem?_idxOf (h.met o (List.mem_of_getElem? hk) t ht)

/-- Every transition of the expansion is the image of one that leaves the origin of its source. -/
theorem exists_of_mem (h : m.Splits origins m') {t' : Transition} (ht' : t' ∈ m'.transitions) :
    ∃ k o t, origins[k]? = some o ∧ t ∈ m.leaving o.state ∧ t' = image origins k t := by
  rw [h.transitions, images, List.take_length] at ht'
  obtain ⟨⟨o, k⟩, hk, ht'⟩ := List.mem_flatMap.1 ht'
  obtain ⟨t, ht, rfl⟩ := List.mem_map.1 ht'
  exact ⟨k, o, t, List.mem_zipIdx_iff_getElem?.1 hk, ht, rfl⟩

theorem fits {schema : Schema} (h : m.Splits origins m') (hm : m.Fits schema) :
    m'.Fits schema := by
  refine ⟨?_, ?_⟩
  · intro t' ht'
    obtain ⟨k, o, t, hk, ht, rfl⟩ := h.exists_of_mem ht'
    rw [h.length_flags]
    exact ⟨(List.getElem?_eq_some_iff.1 hk).1,
      (List.getElem?_eq_some_iff.1 (h.getElem?_target hk ht)).1⟩
  · intro t' ht'
    obtain ⟨k, o, t, -, ht, rfl⟩ := h.exists_of_mem ht'
    exact hm.admitted t (List.mem_filter.1 ht).1

/-! ## States and what they stand for -/

theorem standsFor_zero (h : m.Splits origins m') : StandsFor origins 0 0 := by
  refine ⟨.start, ?_, rfl⟩
  rw [← List.head?_eq_getElem?, h.first]

theorem flags_of_standsFor (h : m.Splits origins m') (hk : StandsFor origins k s) :
    m'.flags[k]? = m.flags[s]? := by
  obtain ⟨o, hk, rfl⟩ := hk
  exact h.getElem?_flags hk

theorem leaving_of_standsFor (h : m.Splits origins m') (hk : StandsFor origins k s) :
    m'.leaving k = (m.leaving s).map (image origins k) := by
  obtain ⟨o, hk, rfl⟩ := hk
  exact h.leaving hk

theorem standsFor_target (h : m.Splits origins m') (hk : StandsFor origins k s) {t : Transition}
    (ht : t ∈ m.leaving s) : StandsFor origins (image origins k t).target t.target := by
  obtain ⟨o, hk, rfl⟩ := hk
  exact ⟨.of t, h.getElem?_target hk ht, rfl⟩

end Splits

end Machine

end WeightedAutomata
