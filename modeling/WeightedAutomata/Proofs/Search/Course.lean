-- The course of finding. One search after another goes from step to step, and each takes over
-- what those before it remembered. A node is remembered only when all nodes after it are. So no
-- remembered node lies on a cycle, and none is on the path of a search.
import WeightedAutomata.Proofs.Moves
import WeightedAutomata.Proofs.Search.Limit

namespace WeightedAutomata

namespace Search

open Relation

/-! ## The states of all searches -/

/-- What is remembered when the search from a start position begins: at first nothing, then what
the search from the position before has left, if it has found nothing. -/
inductive Carried (s : Subject) (config : Config) : Nat → Memo → Prop
  | first : Carried s config 0 {}
  | next {start : Nat} {cut : Bool} {memo memo' : Memo} : Carried s config start memo →
      start < s.text.size → searchFrom s config memo (startNode start) = .ok (⟨none, cut⟩, memo') →
      Carried s config (start + 1) memo'

/-- The states that finding goes through: where the search from a start position has entered its
node, and where a step has led. -/
inductive Course (s : Subject) (config : Config) (start : Nat) : State → Prop
  | enter {room : Nat} {memo : Memo} : Carried s config start memo → start < s.text.size →
      known? config {} memo (startNode start) = none → config.maxDepth = room + 1 →
      Course s config start ⟨[s.frame (startNode start) room],
        Std.HashSet.emptyWithCapacity.insert (startNode start), memo⟩
  | step {state next : State} : Course s config start state →
      step s config state = .running next → Course s config start next

/-- What finding does with the answer of the search from a start position. -/
def findOn (s : Subject) (config : Config) (start : Nat) :
    Except Error (Finding × Memo) → Except Error (Option Match)
  | .error error => .error error
  | .ok (⟨some furthest, _⟩, _) => .ok (some ⟨start, furthest - start⟩)
  | .ok (⟨none, _⟩, memo) =>
    findFrom s config memo (List.range' (start + 1) (s.text.size - (start + 1)))

section course

variable {s : Subject} {config : Config} {start : Nat} {memo : Memo} {state : State}

theorem findFrom_eq_findOn (s : Subject) (config : Config) (memo : Memo)
    (hlt : start < s.text.size) :
    findFrom s config memo (List.range' start (s.text.size - start)) =
      findOn s config start (searchFrom s config memo (startNode start)) := by
  have hcount : s.text.size - start = s.text.size - (start + 1) + 1 := by omega
  rw [hcount, List.range'_succ, findFrom]
  unfold startNode findOn
  rfl

/-- Finding goes on with the search from a start position, if those before it have found nothing. -/
theorem Carried.find_eq (h : Carried s config start memo) :
    find s config = findFrom s config memo (List.range' start (s.text.size - start)) := by
  induction h with
  | first =>
    rw [find, List.range_eq_range']
    rfl
  | next _ hlt hsearch ih => rw [ih, findFrom_eq_findOn s config _ hlt, hsearch, findOn]

/-- Each state is one that finding goes on from. -/
theorem Course.find_eq (h : Course s config start state) :
    find s config = findOn s config start (run s config state) := by
  induction h with
  | enter hcarried hlt hknown hdepth =>
    rw [hcarried.find_eq, findFrom_eq_findOn s config _ hlt, searchFrom, hknown, hdepth]
  | step _ hstep ih => rw [ih, run_eq, hstep]

end course

/-! ## Proper nodes -/

/-- The state and the position of a node. -/
def Node.pair (x : Node) : Nat × Nat := (x.state, x.position)

/-- A node of the graph: a position in the text, at the start exactly where that is 0. -/
def Subject.Proper (s : Subject) (x : Node) : Prop := x = nodeOf x.pair ∧ x.position ≤ s.text.size

section proper

variable {s : Subject} {m : Machine} {text : List Char} {x y : Node} {v : Nat × Nat}

theorem Subject.Presents.size_text (hs : s.Presents m text) : s.text.size = text.length := by
  rw [hs.text, List.size_toArray]

theorem Subject.Presents.proper_nodeOf (hs : s.Presents m text) (hv : v.2 ≤ text.length) :
    s.Proper (nodeOf v) := ⟨rfl, hs.size_text ▸ hv⟩

theorem proper_startNode {start : Nat} (h : start < s.text.size) : s.Proper (startNode start) :=
  ⟨rfl, Nat.le_of_lt h⟩

theorem Subject.Proper.atStart_iff (h : s.Proper x) : x.atStart = true ↔ x.position = 0 := by
  rw [h.1]
  exact beq_iff_eq

/-- From a proper node a search goes along the edges of the graph. -/
theorem Subject.Presents.next_iff_of_proper (hs : s.Presents m text) (h : s.Proper x) (y : Node) :
    s.Next x y ↔ ∃ w, m.Moves text x.pair w ∧ y = nodeOf w := by
  rw [← hs.next_iff (v := x.pair) (hs.size_text ▸ h.2), ← h.1]

theorem Subject.Proper.reach (hs : s.Presents m text) (hx : s.Proper x) (h : s.Reach x y) :
    s.Proper y := by
  induction h with
  | refl => exact hx
  | tail _ hyz ih =>
    obtain ⟨w, hmoves, rfl⟩ := (hs.next_iff_of_proper ih _).1 hyz
    exact hs.proper_nodeOf (hmoves.position_le (hs.size_text ▸ ih.2))

end proper

/-! ## Settled memories -/

/-- What is remembered holds for good, and is about proper nodes that lie on no cycle. A search
without a memory remembers nothing. -/
structure Settled (s : Subject) (config : Config) (memo : Memo) : Prop extends
    Remembered s memo where
  proper : ∀ x v, memo[x]? = some v → s.Proper x
  acyclic : ∀ x v, memo[x]? = some v → ¬ TransGen s.Next x x
  plain : config.memoize = false → ∀ x : Node, memo[x]? = none

/-- What is remembered after a step. -/
def Progress.memo (before : Memo) : Progress → Memo
  | .running state => state.memo
  | .finished _ memo => memo
  | .tooDeep => before

section settled

variable {s : Subject} {config : Config} {m : Machine} {text : List Char} {memo : Memo}
  {root x : Node} {found : Finding} {state : State}

theorem settled_empty (s : Subject) (config : Config) : Settled s config {} where
  toRemembered := remembered_empty s
  proper := by simp
  acyclic := by simp
  plain := by simp

/-- A cycle through a node would lead through a remembered one back to it, and all nodes after
that are remembered already. -/
theorem Remembered.not_transGen (hm : Remembered s memo) (hx : memo[x]? = none)
    (hnext : ∀ c, s.Next x c → ∃ v, memo[c]? = some v) : ¬ TransGen s.Next x x := by
  intro hcycle
  obtain ⟨c, hxc, hcx⟩ := TransGen.head'_iff.1 hcycle
  obtain ⟨v, hv⟩ := hnext c hxc
  obtain ⟨w, hw⟩ := hm.reach hv hcx
  rw [hx] at hw
  cases hw

theorem remember_cases (config : Config) (memo : Memo) (x : Node) (found : Finding) :
    remember config memo x found = memo ∨ config.memoize = true ∧ found.cut = false ∧
      remember config memo x found = memo.insert x found.furthest := by
  by_cases hkeep : (config.memoize && !found.cut) = true
  · have hsplit : config.memoize = true ∧ found.cut = false := by simpa using hkeep
    exact Or.inr ⟨hsplit.1, hsplit.2, if_pos hkeep⟩
  · exact Or.inl (if_neg hkeep)

/-- Leaving a node all of whose transitions are tried keeps a memory settled. -/
theorem Settled.remember {off : List Node} {room : Nat} (h : Settled s config memo)
    (hx : s.Proper x) (hexplored : Explored s config memo off x room found (s.leaving x.state))
    (hunknown : config.memoize = true → ∀ z ∈ x :: off, memo[z]? = none) :
    Settled s config (remember config memo x found) := by
  have hremembered := h.toRemembered.remember hexplored hunknown
  rcases remember_cases config memo x found with hsame | ⟨hmemoize, hcut, hinsert⟩
  · rw [hsame]
    exact h
  · rw [hinsert] at hremembered ⊢
    -- Without a cut all nodes after the new one were told to be remembered.
    have hnext : ∀ c, s.Next x c → ∃ v, memo[c]? = some v := by
      rintro c ⟨t, ht, htc⟩
      exact (hexplored.each t ht c htc).kept hmemoize hcut
    refine ⟨hremembered, ?_, ?_, ?_⟩
    · intro y v hy
      rcases eq_or_getElem?_of_insert hy with ⟨rfl, -⟩ | hy
      · exact hx
      · exact h.proper y v hy
    · intro y v hy
      rcases eq_or_getElem?_of_insert hy with ⟨rfl, -⟩ | hy
      · exact h.toRemembered.not_transGen (hunknown hmemoize y List.mem_cons_self) hnext
      · exact h.acyclic y v hy
    · intro hplain
      rw [hmemoize] at hplain
      cases hplain

/-! ## One step -/

/-- A step leaves the last node of the path, where nothing is pending there, and ends the search if
it was the only one. Any other step remembers nothing and ends no search. -/
theorem step_leaves_or_keeps (s : Subject) (config : Config) (state : State) :
    ((step s config state).memo state.memo = state.memo ∧
      ∀ found memo, step s config state = .finished found memo → state.stack = []) ∨
    ∃ frame below, state.stack = frame :: below ∧ frame.pending = [] ∧
      (step s config state).memo state.memo =
        remember config state.memo frame.node frame.finding ∧
      ∀ found memo, step s config state = .finished found memo → below = [] := by
  obtain ⟨stack, onPath, memo⟩ := state
  cases stack with
  | nil => exact Or.inl ⟨rfl, fun _ _ _ => rfl⟩
  | cons frame below =>
    cases hpending : frame.pending with
    | nil =>
      refine Or.inr ⟨frame, below, rfl, hpending, ?_⟩
      simp only [step, hpending]
      cases below with
      | nil => exact ⟨rfl, fun _ _ _ => rfl⟩
      | cons parent rest => exact ⟨rfl, fun _ _ h => by cases h⟩
    | cons t pending =>
      left
      simp only [step, hpending]
      split
      · exact ⟨rfl, fun _ _ h => by cases h⟩
      · split
        · exact ⟨rfl, fun _ _ h => by cases h⟩
        · split
          · exact ⟨rfl, fun _ _ h => by cases h⟩
          · exact ⟨rfl, fun _ _ h => by cases h⟩

theorem Spine.reach {child : Node} {below : List Frame} (h : Spine s config memo root child below) :
    s.Reach root child ∧ ∀ frame ∈ below, s.Reach root frame.node := by
  induction below generalizing child with
  | nil =>
    obtain rfl : child = root := h
    exact ⟨.refl, List.forall_mem_nil _⟩
  | cons frame below ih =>
    obtain ⟨⟨tried, t, hleaving, hmove, -⟩, -, hbelow⟩ := h
    obtain ⟨hframe, hrest⟩ := ih hbelow
    have hnext : s.Next frame.node child := ⟨t, by simp [hleaving], hmove⟩
    exact ⟨hframe.tail hnext, List.forall_mem_cons.2 ⟨hframe, hrest⟩⟩

/-- The root leads to all nodes on the stack. -/
theorem Good.reach (h : Good s config root state) :
    ∀ frame ∈ state.stack, s.Reach root frame.node := by
  obtain ⟨stack, onPath, memo⟩ := state
  cases stack with
  | nil => exact List.forall_mem_nil _
  | cons frame below => exact List.forall_mem_cons.2 h.stacked.2.2.reach

theorem Good.proper (hs : s.Presents m text) (hroot : s.Proper root)
    (h : Good s config root state) : ∀ frame ∈ state.stack, s.Proper frame.node :=
  fun frame hframe => hroot.reach hs (h.reach frame hframe)

/-- One step keeps the memory settled. -/
theorem Settled.step (hs : s.Presents m text) (hroot : s.Proper root)
    (hgood : Good s config root state) (h : Settled s config state.memo) :
    Settled s config ((step s config state).memo state.memo) := by
  rcases step_leaves_or_keeps s config state with
    ⟨hmemo, -⟩ | ⟨frame, below, hstack, hpending, hmemo, -⟩
  · rw [hmemo]
    exact h
  · rw [hmemo]
    have hproper := hgood.proper hs hroot frame (by simp [hstack])
    obtain ⟨-, -, -, hunknown, hstacked⟩ := hgood
    rw [hstack] at hunknown hstacked
    obtain ⟨⟨tried, hleaving, hexplored⟩, -⟩ := hstacked
    rw [hpending, List.append_nil] at hleaving
    rw [← hleaving] at hexplored
    exact h.remember hproper hexplored hunknown

/-! ## Whole searches -/

theorem Settled.run (hs : s.Presents m text) (hroot : s.Proper root)
    (hgood : Good s config root state) (h : Settled s config state.memo)
    (hrun : run s config state = .ok (found, memo)) : Settled s config memo := by
  have hnext := h.step hs hroot hgood
  have hsound := sound_step hgood
  fun_induction Search.run s config state with
  | case1 state next hstep ih =>
    rw [hstep] at hnext hsound
    exact ih hsound hnext hrun (hnext.step hs hroot hsound) (sound_step hsound)
  | case2 state found' memo' hstep =>
    rw [hstep] at hnext
    cases hrun
    exact hnext
  | case3 => cases hrun

theorem Settled.searchFrom {memo' : Memo} (hs : s.Presents m text) (hroot : s.Proper root)
    (h : Settled s config memo) (hsearch : searchFrom s config memo root = .ok (found, memo')) :
    Settled s config memo' := by
  unfold Search.searchFrom at hsearch
  split at hsearch
  · cases hsearch
    exact h
  · rename_i hknown
    split at hsearch
    · cases hsearch
    · rename_i room hdepth
      have hgood := good_root h.toRemembered hknown hdepth
      exact Settled.run hs hroot hgood h hsearch

/-- Whatever is carried from search to search is settled. -/
theorem Carried.settled {start : Nat} (hs : s.Presents m text) (h : Carried s config start memo) :
    Settled s config memo := by
  induction h with
  | first => exact settled_empty s config
  | next _ hlt hsearch ih => exact ih.searchFrom hs (proper_startNode hlt) hsearch

/-- All states of finding are states of a search that keeps its invariant. -/
theorem Course.good {start : Nat} (hs : s.Presents m text) (h : Course s config start state) :
    s.Proper (startNode start) ∧ Good s config (startNode start) state ∧
      Settled s config state.memo := by
  induction h with
  | enter hcarried hlt hknown hdepth =>
    have hsettled := hcarried.settled hs
    exact ⟨proper_startNode hlt, good_root hsettled.toRemembered hknown hdepth, hsettled⟩
  | step _ hstep ih =>
    obtain ⟨hroot, hgood, hsettled⟩ := ih
    have hsound := sound_step hgood
    have hnext := hsettled.step hs hroot hgood
    rw [hstep] at hsound hnext
    exact ⟨hroot, hsound, hnext⟩

end settled

end Search

end WeightedAutomata
