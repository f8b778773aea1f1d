-- The transitions of a unit in compressed rows. One table lists the numbers of the transitions,
-- those of one state behind those of the state before it, and another tells where the numbers of
-- each state begin. Three passes fill them: over the transitions, to count them at each state; over
-- the states, to add the counts up; and over the transitions again, each of which takes the next
-- free place of its state. No pass looks for a row that is missing, and what is read at a state is
-- its bundle.
import Mathlib.Data.List.Nodup
import Mathlib.Logic.Function.Basic
import WeightedAutomata.Proofs.Reading

namespace WeightedAutomata

/-- Transitions with a table of their numbers. The numbers at a state stand in `order` from place
`offsets[state]` up to place `offsets[state + 1]`. -/
structure CompressedRows where
  transitions : Array Transition
  offsets : Array Nat
  order : Array Nat

namespace CompressedRows

/-! ## Tables with an end -/

def lookUp {α : Type} (table : Array α) (place : Nat) : Except Fault α :=
  match table[place]? with
  | some value => .ok value
  | none => .error .missingRow

def store {α : Type} (table : Array α) (place : Nat) (value : α) : Except Fault (Array α) :=
  if place < table.size then .ok (table.setIfInBounds place value) else .error .missingRow

/-- The entries of a table from one place up to another. -/
def between {α : Type} (table : Array α) (start stop : Nat) : Except Fault (List α) :=
  if start ≤ stop ∧ stop ≤ table.size then .ok ((table.toList.drop start).take (stop - start))
  else .error .missingRow

/-! ## Three passes -/

/-- Counts a transition for the state behind its own. -/
def count (direction : Direction) (offsets : Array Nat) (t : Transition) :
    Except Fault (Array Nat) := do
  let n ← lookUp offsets (t.endAt direction + 1)
  store offsets (t.endAt direction + 1) (n + 1)

/-- Adds where a state begins to what is counted for the state behind it. -/
def addUp (offsets : Array Nat) (state : Nat) : Except Fault (Array Nat) := do
  let start ← lookUp offsets state
  let n ← lookUp offsets (state + 1)
  store offsets (state + 1) (n + start)

/-- Puts the number of a transition into the next free place of its state. -/
def place (direction : Direction) (tables : Array Nat × Array Nat) (entry : Transition × Nat) :
    Except Fault (Array Nat × Array Nat) := do
  let free ← lookUp tables.1 (entry.1.endAt direction)
  let order ← store tables.2 free entry.2
  let next ← store tables.1 (entry.1.endAt direction) (free + 1)
  return (next, order)

def ofTransitions (stateCount : Nat) (ts : List Transition) (direction : Direction) :
    Except Fault CompressedRows := do
  let counts ← ts.foldlM (count direction) (Array.replicate (stateCount + 1) 0)
  let offsets ← (List.range stateCount).foldlM addUp counts
  let (_, order) ← ts.zipIdx.foldlM (place direction) (offsets, Array.replicate ts.length 0)
  return ⟨ts.toArray, offsets, order⟩

def ofUnit (a : Automaton) (unit : Nat) (direction : Direction) : Except Fault CompressedRows := do
  let ts ← a.transitionsOf unit
  match a.units[unit]? with
  | none => .error .missingRow
  | some row => ofTransitions row.stateCount ts direction

/-! ## Reading at a state -/

/-- The numbers of the transitions at a state. -/
def numbers (rows : CompressedRows) (state : Nat) : Except Fault (List Nat) :=
  if rows.offsets.size ≤ state + 1 then .ok []
  else do
    let start ← lookUp rows.offsets state
    let stop ← lookUp rows.offsets (state + 1)
    between rows.order start stop

/-- The transitions at a state. -/
def transitionsAt (rows : CompressedRows) (state : Nat) : Except Fault (List Transition) := do
  let numbers ← rows.numbers state
  numbers.mapM (lookUp rows.transitions)

/-- The transition at a state that stands `k` places behind the first. -/
def transition? (rows : CompressedRows) (state k : Nat) : Except Fault (Option Transition) := do
  let numbers ← rows.numbers state
  match numbers[k]? with
  | none => return none
  | some number => return some (← lookUp rows.transitions number)

/-- How many transitions there are at a state. -/
def degree (rows : CompressedRows) (state : Nat) : Except Fault Nat := do
  let numbers ← rows.numbers state
  return numbers.length

/-- What is read from compressed rows is what an index has, at every state. -/
structure ReadsAs (rows : CompressedRows) (index : TransitionIndex) : Prop where
  numbers : ∀ state, rows.numbers state = .ok (index.numbers state)
  transitionsAt : ∀ state, rows.transitionsAt state = .ok (index.transitions state)
  transition? : ∀ state k, rows.transition? state k = .ok (index.transition? state k)
  degree : ∀ state, rows.degree state = .ok (index.degree state)

end CompressedRows

namespace TransitionIndex

/-- The numbers of the transitions with an end at a state, from the first to the last. -/
def numbersAt (direction : Direction) (ts : List Transition) (state : Nat) : List Nat :=
  (ts.zipIdx.filter fun entry => entry.1.endAt direction = state).map (·.2)

/-- How many of the transitions have their end at a state before the given one. -/
def below (direction : Direction) (ts : List Transition) (state : Nat) : Nat :=
  (ts.filter fun t => t.endAt direction < state).length

/-- An index parts the transitions of a unit with `stateCount` states. At each state stand the
numbers of those that have their end there and no others, in increasing order, and over all states
each number stands just once. The other readings agree with that. -/
structure Parts (index : TransitionIndex) (stateCount : Nat) (ts : List Transition)
    (direction : Direction) : Prop where
  increasing : ∀ state, (index.numbers state).Pairwise (· < ·)
  mem_numbers : ∀ state i,
    i ∈ index.numbers state ↔ ∃ t, ts[i]? = some t ∧ t.endAt direction = state
  unknown : ∀ state, stateCount ≤ state → index.numbers state = []
  transitions : ∀ state, (index.transitions state).map some = (index.numbers state).map (ts[·]?)
  transition? : ∀ state k,
    index.transition? state k = (index.numbers state)[k]?.bind fun i => ts[i]?
  degree : ∀ state, index.degree state = (index.numbers state).length
  once : ((List.range stateCount).flatMap index.numbers).Perm (List.range ts.length)

variable {ts p rest : List Transition} {t : Transition} {direction : Direction}
  {stateCount state s i : Nat}

/-! ## Numbers at a state -/

theorem numbersAt_concat (direction : Direction) (p : List Transition) (t : Transition)
    (state : Nat) : numbersAt direction (p ++ [t]) state =
      numbersAt direction p state ++ if t.endAt direction = state then [p.length] else [] := by
  by_cases h : t.endAt direction = state <;> simp [numbersAt, List.zipIdx_append, h]

theorem length_numbersAt (direction : Direction) (ts : List Transition) (state : Nat) :
    (numbersAt direction ts state).length =
      (ts.filter fun t => t.endAt direction = state).length := by
  induction ts using List.reverseRecOn with
  | nil => rfl
  | append_singleton ts t ih =>
    rw [numbersAt_concat, List.length_append, ih, List.filter_append, List.length_append]
    by_cases h : t.endAt direction = state <;> simp [h]

theorem mem_numbersAt_iff :
    i ∈ numbersAt direction ts state ↔ ∃ t, ts[i]? = some t ∧ t.endAt direction = state := by
  simp [numbersAt, List.mem_zipIdx_iff_getElem?]

theorem pairwise_numbersAt (direction : Direction) (ts : List Transition) (state : Nat) :
    (numbersAt direction ts state).Pairwise (· < ·) := by
  induction ts using List.reverseRecOn with
  | nil => exact .nil
  | append_singleton ts t ih =>
    have hlt : ∀ i ∈ numbersAt direction ts state, i < ts.length := by
      intro i hi
      obtain ⟨t, ht, -⟩ := mem_numbersAt_iff.1 hi
      exact (List.getElem?_eq_some_iff.1 ht).1
    rw [numbersAt_concat]
    by_cases h : t.endAt direction = state
    · simpa [h, List.pairwise_append, ih] using hlt
    · simpa [h] using ih

theorem numbersAt_eq_nil (hends : ∀ t ∈ ts, t.endAt direction < stateCount)
    (h : stateCount ≤ state) : numbersAt direction ts state = [] := by
  rw [List.eq_nil_iff_forall_not_mem]
  intro i hi
  obtain ⟨t, ht, hstate⟩ := mem_numbersAt_iff.1 hi
  have := hends t (List.mem_of_getElem? ht)
  omega

/-- Over all states the numbers are those of all transitions, each of them once. -/
theorem perm_numbersAt (hends : ∀ t ∈ ts, t.endAt direction < stateCount) :
    ((List.range stateCount).flatMap (numbersAt direction ts)).Perm (List.range ts.length) := by
  apply (List.perm_ext_iff_of_nodup ?_ List.nodup_range).2
  · intro i
    simp only [List.mem_flatMap, List.mem_range, mem_numbersAt_iff]
    refine ⟨?_, ?_⟩
    · rintro ⟨state, -, t, ht, -⟩
      exact (List.getElem?_eq_some_iff.1 ht).1
    · intro hi
      exact ⟨ts[i].endAt direction, hends _ (List.getElem_mem hi), ts[i],
        List.getElem?_eq_getElem hi, rfl⟩
  · apply List.nodup_flatMap.2
    refine ⟨fun state _ => (pairwise_numbersAt direction ts state).imp Nat.ne_of_lt, ?_⟩
    refine List.nodup_range.imp fun {s s'} hne i hi hi' => hne ?_
    obtain ⟨t, ht, rfl⟩ := mem_numbersAt_iff.1 hi
    obtain ⟨t', ht', rfl⟩ := mem_numbersAt_iff.1 hi'
    rw [ht, Option.some.injEq] at ht'
    rw [ht']

/-! ## What an index has -/

theorem bundle_eq (hends : ∀ t ∈ ts, t.endAt direction < stateCount) (state : Nat) :
    (ofTransitions stateCount ts direction).bundle state =
      (ts.zipIdx.filter fun entry => entry.1.endAt direction = state).map fun entry =>
        (entry.2, entry.1) := by
  rw [bundle_ofTransitions hends, List.filter_map]
  rfl

theorem numbers_ofTransitions (hends : ∀ t ∈ ts, t.endAt direction < stateCount) (state : Nat) :
    (ofTransitions stateCount ts direction).numbers state = numbersAt direction ts state := by
  simp [numbers, bundle_eq hends, numbersAt]

/-- Each entry of a bundle has the transition of its number. -/
theorem getElem?_of_mem_bundle (hends : ∀ t ∈ ts, t.endAt direction < stateCount)
    {entry : Nat × Transition}
    (h : entry ∈ (ofTransitions stateCount ts direction).bundle state) :
    ts[entry.1]? = some entry.2 := by
  rw [bundle_eq hends] at h
  obtain ⟨⟨t, i⟩, hi, rfl⟩ := List.mem_map.1 h
  exact List.mem_zipIdx_iff_getElem?.1 (List.mem_filter.1 hi).1

theorem parts_ofTransitions (hends : ∀ t ∈ ts, t.endAt direction < stateCount) :
    (ofTransitions stateCount ts direction).Parts stateCount ts direction where
  increasing := by
    intro state
    rw [numbers_ofTransitions hends]
    exact pairwise_numbersAt direction ts state
  mem_numbers := by
    intro state i
    rw [numbers_ofTransitions hends]
    exact mem_numbersAt_iff
  unknown := by
    intro state h
    rw [numbers_ofTransitions hends]
    exact numbersAt_eq_nil hends h
  transitions := by
    intro state
    simp only [TransitionIndex.transitions, numbers, List.map_map]
    apply List.map_congr_left
    intro entry hentry
    exact (getElem?_of_mem_bundle hends hentry).symm
  transition? := by
    intro state k
    simp only [TransitionIndex.transition?, numbers, List.getElem?_map]
    cases hentry : ((ofTransitions stateCount ts direction).bundle state)[k]? with
    | none => rfl
    | some entry => exact (getElem?_of_mem_bundle hends (List.mem_of_getElem? hentry)).symm
  degree := by
    intro state
    simp [TransitionIndex.degree, numbers]
  once := by
    simp only [funext (numbers_ofTransitions hends)]
    exact perm_numbersAt hends

/-! ## Where the numbers of a state begin -/

@[simp] theorem below_zero : below direction ts 0 = 0 := by simp [below]

theorem below_succ (direction : Direction) (ts : List Transition) (state : Nat) :
    below direction ts (state + 1) =
      below direction ts state + (numbersAt direction ts state).length := by
  rw [length_numbersAt]
  exact length_filter_add_length_filter ts (·.endAt direction) state

theorem below_mono (direction : Direction) (ts : List Transition) {s s' : Nat} (h : s ≤ s') :
    below direction ts s ≤ below direction ts s' := by
  induction h with
  | refl => exact Nat.le_refl _
  | step _ ih =>
    rw [below_succ]
    omega

theorem below_le (direction : Direction) (ts : List Transition) (state : Nat) :
    below direction ts state ≤ ts.length := List.length_filter_le _ _

theorem length_numbersAt_prefix (direction : Direction) (hts : ts = p ++ rest) (state : Nat) :
    (numbersAt direction p state).length ≤ (numbersAt direction ts state).length := by
  simp [length_numbersAt, hts]

end TransitionIndex

namespace CompressedRows

open TransitionIndex

variable {ts p rest : List Transition} {t : Transition} {direction : Direction}
  {n stateCount : Nat} {f g : Nat → Nat} {k value : Nat}

/-! ## Tables as functions -/

/-- The table of the first `n` values of a function. -/
def tabulate (n : Nat) (f : Nat → Nat) : Array Nat := (Array.range n).map f

@[simp] theorem size_tabulate : (tabulate n f).size = n := by simp [tabulate]

@[simp] theorem getElem_tabulate (hk : k < (tabulate n f).size) : (tabulate n f)[k] = f k := by
  simp [tabulate]

theorem tabulate_zero (n : Nat) : Array.replicate n 0 = tabulate n fun _ => 0 := by
  apply Array.ext <;> simp

theorem tabulate_congr (h : ∀ k < n, f k = g k) : tabulate n f = tabulate n g := by
  apply Array.ext
  · simp
  · intro k hk _
    simpa using h k (by simpa using hk)

theorem lookUp_tabulate (hk : k < n) : lookUp (tabulate n f) k = .ok (f k) := by
  simp [lookUp, hk]

theorem store_tabulate (hk : k < n) (value : Nat) :
    store (tabulate n f) k value = .ok (tabulate n (Function.update f k value)) := by
  unfold store
  rw [if_pos (by simpa using hk), Except.ok.injEq]
  apply Array.ext
  · simp
  · intro j hj _
    rw [Array.size_setIfInBounds] at hj
    rw [Array.getElem_setIfInBounds hj, getElem_tabulate, getElem_tabulate]
    by_cases heq : k = j
    · simp [heq]
    · simp [heq, Ne.symm heq]

/-! ## Counting -/

/-- One pass over the transitions counts those at each state. -/
theorem foldlM_count (hends : ∀ t ∈ ts, t.endAt direction < stateCount) :
    ts.foldlM (count direction) (tabulate (stateCount + 1) fun _ => 0) =
      .ok (tabulate (stateCount + 1) fun k =>
        (ts.filter fun t => t.endAt direction + 1 = k).length) := by
  induction ts using List.reverseRecOn with
  | nil => rfl
  | append_singleton ts t ih =>
    obtain ⟨hbefore, hlast⟩ := List.forall_mem_append.1 hends
    have hplace : t.endAt direction + 1 < stateCount + 1 :=
      Nat.succ_lt_succ (hlast t (List.mem_singleton_self t))
    rw [List.foldlM_append, ih hbefore]
    simp only [List.foldlM_cons, List.foldlM_nil, bind, Except.bind, count,
      lookUp_tabulate hplace, store_tabulate hplace, pure, Except.pure, Except.ok.injEq]
    apply tabulate_congr
    intro k _
    by_cases h : k = t.endAt direction + 1
    · simp [h]
    · simp [h, Ne.symm h]

/-! ## Adding up -/

/-- The states up to the given one have their places, and those behind it their counts. -/
def summed (direction : Direction) (ts : List Transition) (state k : Nat) : Nat :=
  if k ≤ state then below direction ts k
  else (ts.filter fun t => t.endAt direction + 1 = k).length

theorem summed_zero (direction : Direction) (ts : List Transition) :
    summed direction ts 0 = fun k => (ts.filter fun t => t.endAt direction + 1 = k).length := by
  funext k
  cases k <;> simp [summed]

theorem summed_succ (direction : Direction) (ts : List Transition) (state : Nat) :
    summed direction ts (state + 1) = Function.update (summed direction ts state) (state + 1)
      (summed direction ts state (state + 1) + summed direction ts state state) := by
  funext k
  by_cases hk : k = state + 1
  · subst hk
    have hnot : ¬ state + 1 ≤ state := Nat.not_succ_le_self state
    unfold summed
    rw [Function.update_self, if_pos (Nat.le_refl _), if_neg hnot, if_pos (Nat.le_refl _),
      below_succ, length_numbersAt, Nat.add_comm]
    simp only [Nat.add_right_cancel_iff]
  · have hle : k ≤ state + 1 ↔ k ≤ state := by omega
    simp [summed, hk, hle]

/-- A pass over the states adds up the counts of those before each. -/
theorem foldlM_addUp (direction : Direction) (ts : List Transition) {state : Nat}
    (hstate : state ≤ stateCount) : (List.range state).foldlM addUp
      (tabulate (stateCount + 1) (summed direction ts 0)) =
        .ok (tabulate (stateCount + 1) (summed direction ts state)) := by
  induction state with
  | zero => rfl
  | succ state ih =>
    have hlow : state < stateCount + 1 := by omega
    have hhigh : state + 1 < stateCount + 1 := by omega
    rw [List.range_succ, List.foldlM_append, ih (by omega), summed_succ]
    simp [bind, Except.bind, addUp, lookUp_tabulate hlow, lookUp_tabulate hhigh,
      store_tabulate hhigh, pure, Except.pure]

/-! ## Placing -/

/-- The next free place of each state once the transitions of `p` have theirs. -/
def free (direction : Direction) (ts p : List Transition) (state : Nat) : Nat :=
  below direction ts state + (numbersAt direction p state).length

/-- The numbers of the transitions of `p` stand in the places of their states. -/
def Filled (direction : Direction) (ts p : List Transition) (g : Nat → Nat) : Prop :=
  ∀ state j i, (numbersAt direction p state)[j]? = some i → g (below direction ts state + j) = i

theorem free_nil (direction : Direction) (ts : List Transition) :
    free direction ts [] = below direction ts := by
  funext state
  simp [free, numbersAt]

theorem free_concat (direction : Direction) (ts p : List Transition) (t : Transition) :
    free direction ts (p ++ [t]) = Function.update (free direction ts p) (t.endAt direction)
      (free direction ts p (t.endAt direction) + 1) := by
  funext state
  by_cases h : state = t.endAt direction
  · simp [free, numbersAt_concat, h, Nat.add_assoc]
  · simp [free, numbersAt_concat, h, Ne.symm h]

/-- While a transition is left to be placed, there is a place for it before those of the next
state. -/
theorem free_lt (direction : Direction) (hts : ts = p ++ t :: rest) :
    free direction ts p (t.endAt direction) < below direction ts (t.endAt direction + 1) := by
  have hprefix : ts = (p ++ [t]) ++ rest := by simp [hts]
  have hle := length_numbersAt_prefix direction hprefix (t.endAt direction)
  rw [below_succ, free]
  simp only [numbersAt_concat, if_true, List.length_append, List.length_singleton] at hle
  omega

/-- The place that a transition takes is taken by no other. -/
theorem Filled.concat (hg : Filled direction ts p g) (hts : ts = p ++ t :: rest) :
    Filled direction ts (p ++ [t])
      (Function.update g (free direction ts p (t.endAt direction)) p.length) := by
  intro state j i hi
  have hlt := free_lt direction hts
  by_cases h : t.endAt direction = state
  · subst h
    rw [numbersAt_concat, if_pos rfl, List.getElem?_append] at hi
    split at hi
    · rename_i hj
      rw [Function.update_of_ne (by unfold free; omega)]
      exact hg _ j i hi
    · obtain ⟨hj, rfl⟩ : j = (numbersAt direction p (t.endAt direction)).length ∧
          p.length = i := by
        rw [List.getElem?_singleton] at hi
        split at hi
        · exact ⟨by omega, Option.some.inj hi⟩
        · cases hi
      rw [hj]
      exact Function.update_self ..
  · rw [numbersAt_concat, if_neg h, List.append_nil] at hi
    have hj : j < (numbersAt direction p state).length := (List.getElem?_eq_some_iff.1 hi).1
    have hown := length_numbersAt_prefix direction hts state
    have hnext := below_succ direction ts state
    rw [Function.update_of_ne]
    · exact hg state j i hi
    · -- The places of different states do not overlap.
      rcases Nat.lt_or_gt_of_ne h with hless | hless
      · have hle : below direction ts (t.endAt direction + 1) ≤ below direction ts state :=
          below_mono direction ts hless
        omega
      · have hle : below direction ts (state + 1) ≤ below direction ts (t.endAt direction) :=
          below_mono direction ts hless
        unfold free
        omega

theorem place_tabulate (hends : ∀ t ∈ ts, t.endAt direction < stateCount)
    (hts : ts = p ++ t :: rest) :
    place direction (tabulate (stateCount + 1) (free direction ts p), tabulate ts.length g)
        (t, p.length) =
      .ok (tabulate (stateCount + 1) (free direction ts (p ++ [t])),
        tabulate ts.length
          (Function.update g (free direction ts p (t.endAt direction)) p.length)) := by
  have hend : t.endAt direction < stateCount + 1 :=
    Nat.lt_succ_of_lt (hends t (by simp [hts]))
  have hfree : free direction ts p (t.endAt direction) < ts.length :=
    Nat.lt_of_lt_of_le (free_lt direction hts) (below_le direction ts _)
  simp [place, bind, Except.bind, lookUp_tabulate hend, store_tabulate hend, store_tabulate hfree,
    free_concat, pure, Except.pure]

/-- A pass over the transitions puts the number of each into a place of its state. -/
theorem exists_foldlM_place (hends : ∀ t ∈ ts, t.endAt direction < stateCount)
    (hts : ts = p ++ rest) (hg : Filled direction ts p g) :
    ∃ g', Filled direction ts ts g' ∧ (rest.zipIdx p.length).foldlM (place direction)
        (tabulate (stateCount + 1) (free direction ts p), tabulate ts.length g) =
      .ok (tabulate (stateCount + 1) (free direction ts ts), tabulate ts.length g') := by
  induction rest generalizing p g with
  | nil =>
    rw [List.append_nil] at hts
    subst hts
    exact ⟨g, hg, rfl⟩
  | cons t rest ih =>
    obtain ⟨g', hg', hfold⟩ := ih (p := p ++ [t]) (by simp [hts]) (hg.concat hts)
    rw [List.length_append, List.length_singleton] at hfold
    refine ⟨g', hg', ?_⟩
    rw [List.zipIdx_cons, List.foldlM_cons, place_tabulate hends hts]
    exact hfold

/-! ## The tables that come about -/

theorem exists_ofTransitions (hends : ∀ t ∈ ts, t.endAt direction < stateCount) :
    ∃ g, Filled direction ts ts g ∧ ofTransitions stateCount ts direction =
      .ok ⟨ts.toArray, tabulate (stateCount + 1) (below direction ts), tabulate ts.length g⟩ := by
  have hnone : Filled direction ts [] fun _ => 0 := by
    intro state j i hi
    cases hi
  obtain ⟨g, hg, hplace⟩ := exists_foldlM_place hends (List.nil_append ts).symm hnone
  have hsummed : tabulate (stateCount + 1) (summed direction ts stateCount) =
      tabulate (stateCount + 1) (below direction ts) := by
    apply tabulate_congr
    intro k hk
    rw [summed, if_pos (Nat.le_of_lt_succ hk)]
  refine ⟨g, hg, ?_⟩
  unfold ofTransitions
  rw [free_nil, List.length_nil] at hplace
  simp only [tabulate_zero, foldlM_count hends, ← summed_zero, bind, Except.bind,
    foldlM_addUp direction ts (Nat.le_refl stateCount), hsummed]
  rw [hplace]
  rfl

/-- What stands in the places of a state are its numbers, in order. -/
theorem numbers_eq (hends : ∀ t ∈ ts, t.endAt direction < stateCount)
    (hg : Filled direction ts ts g) (state : Nat) :
    numbers ⟨ts.toArray, tabulate (stateCount + 1) (below direction ts), tabulate ts.length g⟩
      state = .ok (numbersAt direction ts state) := by
  unfold numbers
  by_cases h : stateCount ≤ state
  · rw [if_pos (by simpa using h), numbersAt_eq_nil hends h]
  · have hlow : state < stateCount + 1 := by omega
    have hhigh : state + 1 < stateCount + 1 := by omega
    have hsucc := below_succ direction ts state
    have hle := below_le direction ts (state + 1)
    have hbounds : below direction ts state ≤ below direction ts (state + 1) ∧
        below direction ts (state + 1) ≤ (tabulate ts.length g).size := by
      rw [size_tabulate]
      omega
    rw [if_neg (by simpa using h)]
    simp only [lookUp_tabulate hlow, lookUp_tabulate hhigh, bind, Except.bind]
    unfold between
    rw [if_pos hbounds, Except.ok.injEq]
    apply List.ext_getElem
    · simp
      omega
    · intro j hj hj'
      have hvalue := hg state j _ (List.getElem?_eq_getElem hj')
      simpa using hvalue

/-- Rows that hold the transitions, and at each state the numbers that an index has, read as the
index does. -/
theorem readsAs_ofTransitions (hends : ∀ t ∈ ts, t.endAt direction < stateCount)
    {offsets order : Array Nat} (hnumbers : ∀ state, numbers ⟨ts.toArray, offsets, order⟩ state =
      .ok ((TransitionIndex.ofTransitions stateCount ts direction).numbers state)) :
    ReadsAs ⟨ts.toArray, offsets, order⟩
      (TransitionIndex.ofTransitions stateCount ts direction) := by
  have hlookUp : ∀ state, ∀ entry ∈ (TransitionIndex.ofTransitions stateCount ts direction).bundle
      state, lookUp ts.toArray entry.1 = .ok entry.2 := by
    intro state entry hentry
    simp [lookUp, getElem?_of_mem_bundle hends hentry]
  refine ⟨hnumbers, ?_, ?_, ?_⟩
  · intro state
    unfold transitionsAt
    rw [hnumbers]
    apply mapM_eq_ok_iff.2
    simp only [TransitionIndex.numbers, TransitionIndex.transitions, List.map_map]
    exact List.map_congr_left (hlookUp state)
  · intro state k
    unfold transition?
    rw [hnumbers]
    simp only [bind, Except.bind, TransitionIndex.numbers, TransitionIndex.transition?,
      List.getElem?_map]
    cases hentry : ((TransitionIndex.ofTransitions stateCount ts direction).bundle state)[k]? with
    | none => rfl
    | some entry => simp [hlookUp state entry (List.mem_of_getElem? hentry), pure, Except.pure]
  · intro state
    unfold degree
    rw [hnumbers]
    simp [bind, Except.bind, pure, Except.pure, TransitionIndex.numbers, TransitionIndex.degree]

/-- The passes come to their end, and what they leave is read as an index. -/
theorem exists_readsAs (hends : ∀ t ∈ ts, t.endAt direction < stateCount) :
    ∃ rows, ofTransitions stateCount ts direction = .ok rows ∧
      rows.ReadsAs (TransitionIndex.ofTransitions stateCount ts direction) := by
  obtain ⟨g, hg, hrows⟩ := exists_ofTransitions hends
  refine ⟨_, hrows, readsAs_ofTransitions hends ?_⟩
  intro state
  rw [numbers_ofTransitions hends]
  exact numbers_eq hends hg state

end CompressedRows

namespace Automaton

variable {a : Automaton} {u : Nat}

/-- The index of a unit parts its transitions by the state at one of their ends. Compressed rows
of them can be filled, and are read alike. -/
theorem index_parts (hsound : a.violation? = none) (hu : u < a.units.length)
    (direction : Direction) :
    ∃ m index rows, a.machines[u]? = some m ∧ TransitionIndex.ofUnit a u direction = .ok index ∧
      index.Parts m.flags.length m.transitions direction ∧
      CompressedRows.ofUnit a u direction = .ok rows ∧ rows.ReadsAs index := by
  obtain ⟨m, hm⟩ := exists_machine hu
  obtain ⟨row, hrow, hcount, -⟩ := exists_row hsound hm
  have hclosed := (fits_of_violation?_eq_none hsound m (List.mem_of_getElem? hm)).closed
  have hends := hclosed.endAt_lt direction
  obtain ⟨rows, hrows, hreads⟩ := CompressedRows.exists_readsAs hends
  refine ⟨m, .ofTransitions m.flags.length m.transitions direction, rows, hm, ?_,
    TransitionIndex.parts_ofTransitions hends, ?_, hreads⟩
  · rw [eq_ofMachines hsound]
    exact ofUnit_ofMachines _ _ _ direction hm hends
  · unfold CompressedRows.ofUnit
    rw [transitionsOf_eq hsound hm]
    simp only [bind, Except.bind, hrow, hcount]
    exact hrows

/-- State 1 is entered from all states, twice from state 0, and not in the order of these states. -/
def entered : Machine where
  name := "entered"
  flags := [0, 1, 0]
  transitions := [{ source := 2, target := 1, input := some .anyChar },
    { source := 0, target := 1, input := some (.ofChar 'a') },
    { source := 0, target := 2, input := some .epsilon },
    { source := 1, target := 1, input := some (.ofChar 'b') },
    { source := 0, target := 1, input := some (.ofChar 'a') }]

example : (CompressedRows.ofTransitions 3 entered.transitions .incoming).map
    (fun rows => (rows.offsets, rows.order)) = .ok (#[0, 0, 4, 5], #[0, 1, 3, 4, 2]) := rfl

/-- The machine behind one with a loop. -/
def enteredBehindLoop : Automaton :=
  ofMachines .acceptor
    [⟨"loop", [1], [{ source := 0, target := 0, input := some .anyChar }]⟩, entered]

theorem index_parts_enteredBehindLoop :
    enteredBehindLoop.violation? = none ∧ 1 < enteredBehindLoop.units.length ∧
    ∃ m index rows, enteredBehindLoop.machines[1]? = some m ∧
      TransitionIndex.ofUnit enteredBehindLoop 1 .incoming = .ok index ∧
      index.Parts m.flags.length m.transitions .incoming ∧
      CompressedRows.ofUnit enteredBehindLoop 1 .incoming = .ok rows ∧ rows.ReadsAs index :=
  ⟨by decide, by decide, index_parts (by decide) (by decide) .incoming⟩

end Automaton

end WeightedAutomata
