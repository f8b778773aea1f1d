-- Whole searches. A step keeps the invariant of the stack, and ends with the truth about the
-- root or with a trail that has no room. So does a run, by induction on its steps, and the
-- search of all start positions, in which one run takes over what the run before remembered.
import WeightedAutomata.Proofs.Search.Invariant
import WeightedAutomata.Search.Find

namespace WeightedAutomata

namespace Search

open Relation

/-! ## The invariant of the stack -/

section invariant

variable (s : Subject) (config : Config) (memo : Memo) (root : Node)

/-- The frames below a node. Each of them is exploring the transition to the node above it,
and the first one is the frame of the root. -/
def Spine : Node → List Frame → Prop
  | child, [] => child = root
  | child, frame :: below =>
    (∃ tried t, s.leaving frame.node.state = tried ++ t :: frame.pending ∧
      s.move frame.node t = some child ∧
      Explored s config memo (below.map (·.node)) frame.node frame.room frame.finding tried) ∧
    frame.room + below.length + 1 = config.maxDepth ∧ Spine frame.node below

/-- A stack whose last frame has tried the transitions that are no longer pending. -/
def Stacked : List Frame → Prop
  | [] => False
  | frame :: below =>
    (∃ tried, s.leaving frame.node.state = tried ++ frame.pending ∧
      Explored s config memo (below.map (·.node)) frame.node frame.room frame.finding tried) ∧
    frame.room + below.length + 1 = config.maxDepth ∧ Spine s config memo root frame.node below

/-- The invariant of a search under way. -/
structure Good (state : State) : Prop where
  remembered : Remembered s state.memo
  nodup : (state.stack.map (·.node)).Nodup
  onPath : ∀ x, state.onPath.contains x = true ↔ x ∈ state.stack.map (·.node)
  unknown : config.memoize = true → ∀ x ∈ state.stack.map (·.node), state.memo[x]? = none
  stacked : Stacked s config state.memo root state.stack

/-- What a step of a search may lead to. -/
def Sound : Progress → Prop
  | .running state => Good s config root state
  | .finished found memo =>
    Remembered s memo ∧ Reported s config memo [] config.maxDepth root found
  | .tooDeep => ∃ path, s.Trail [] root path ∧ path.length = config.maxDepth + 1

end invariant

variable {s : Subject} {config : Config} {memo : Memo} {root x child : Node}
  {frame : Frame} {below : List Frame} {found : Finding} {onPath : Std.HashSet Node}

theorem Spine.mono {memo' : Memo} (hmemo : Grows memo memo')
    (h : Spine s config memo root child below) : Spine s config memo' root child below := by
  induction below generalizing child with
  | nil => exact h
  | cons frame below ih =>
    obtain ⟨⟨tried, t, hleaving, hmove, hexplored⟩, hroom, hbelow⟩ := h
    exact ⟨⟨tried, t, hleaving, hmove, hexplored.mono hmemo⟩, hroom, ih hbelow⟩

/-- The frames below a node lead to it, from the root. -/
theorem Spine.chain (h : Spine s config memo root child below) :
    (child :: below.map (·.node)).IsChain (fun x y => s.Next y x) ∧
      (child :: below.map (·.node)).getLast? = some root := by
  induction below generalizing child with
  | nil =>
    obtain rfl : child = root := h
    exact ⟨List.isChain_singleton _, rfl⟩
  | cons frame below ih =>
    obtain ⟨⟨tried, t, hleaving, hmove, -⟩, -, hbelow⟩ := h
    obtain ⟨hchain, hlast⟩ := ih hbelow
    have hnext : s.Next frame.node child := ⟨t, by simp [hleaving], hmove⟩
    refine ⟨?_, ?_⟩
    · rw [List.map_cons, List.isChain_cons_cons]
      exact ⟨hnext, hchain⟩
    · rw [List.map_cons, List.getLast?_cons_cons]
      exact hlast

/-- The nodes of a stack, with one more node on top, are a trail from the root. -/
theorem Spine.trail (h : Spine s config memo root child below)
    (hnodup : (child :: below.map (·.node)).Nodup) :
    s.Trail [] root (child :: below.map (·.node)).reverse where
  head := by
    rw [List.head?_reverse]
    exact h.chain.2
  chain := List.isChain_reverse.2 h.chain.1
  nodup := List.nodup_reverse.2 hnodup
  off := by simp

/-! ## What is known without entering a node -/

theorem reported_of_known {off : List Node} {room : Nat} (hm : Remembered s memo)
    (hpath : ∀ x, onPath.contains x = true ↔ x ∈ off)
    (h : known? config onPath memo x = some found) :
    Reported s config memo off room x found := by
  unfold known? at h
  split at h
  · rename_i furthest hknown
    cases h
    split at hknown
    · rename_i hmemoize
      obtain ⟨hfound, hmost⟩ := hm.furthest x furthest hknown
      refine ⟨⟨?_, fun _ _ => ⟨furthest, hknown⟩, fun hno => ?_⟩, hfound⟩
      · intro _ y hxy hy
        exact hmost y (Subject.reach_of_reachOff hxy) hy
      · rw [hmemoize] at hno
        cases hno
    · cases hknown
  · split at h
    · rename_i hcontains
      cases h
      have hx := (hpath x).1 hcontains
      refine ⟨⟨fun hoff => absurd hx hoff, fun _ hcut => (by cases hcut), ?_⟩, by simp⟩
      intro _ path htrail
      exact absurd hx (htrail.off x (List.mem_of_mem_head? htrail.head))
    · cases h

theorem not_mem_of_known?_eq_none {off : List Node}
    (hpath : ∀ x, onPath.contains x = true ↔ x ∈ off)
    (h : known? config onPath memo x = none) :
    x ∉ off ∧ (config.memoize = true → memo[x]? = none) := by
  unfold known? at h
  split at h
  · cases h
  · rename_i hknown
    split at h
    · cases h
    · rename_i hcontains
      refine ⟨fun hx => hcontains ((hpath x).2 hx), fun hmemoize => ?_⟩
      simpa [hmemoize] using hknown

/-! ## One step -/

@[simp] theorem absorb_node (frame : Frame) (found : Finding) :
    (frame.absorb found).node = frame.node := rfl

/-- Remembering a node tells nothing of the others. -/
theorem getElem?_remember_of_ne {y : Node} (h : x ≠ y) :
    (remember config memo x found)[y]? = memo[y]? := by
  unfold remember
  split
  · rw [Std.HashMap.getElem?_insert, if_neg (by simpa using h)]
  · rfl

theorem sound_leave_root (h : Good s config root ⟨[frame], onPath, memo⟩)
    (hpending : frame.pending = []) :
    Sound s config root
      (.finished frame.finding (remember config memo frame.node frame.finding)) := by
  obtain ⟨hm, -, -, hunknown, ⟨tried, hleaving, hexplored⟩, hroom, hroot⟩ := h
  rw [hpending, List.append_nil] at hleaving
  obtain rfl : frame.node = root := hroot
  rw [← hleaving] at hexplored
  refine ⟨hm.remember hexplored hunknown, ?_⟩
  rw [← hroom]
  exact hexplored.reported

theorem sound_leave {parent : Frame}
    (h : Good s config root ⟨frame :: parent :: below, onPath, memo⟩)
    (hpending : frame.pending = []) :
    Sound s config root (.running ⟨parent.absorb frame.finding :: below, onPath.erase frame.node,
      remember config memo frame.node frame.finding⟩) := by
  obtain ⟨hm, hnodup, honPath, hunknown, ⟨tried, hleaving, hexplored⟩, hroom, hspine⟩ := h
  obtain ⟨⟨tried', t, hleaving', hmove, hexplored'⟩, hroom', hspine'⟩ := hspine
  rw [hpending, List.append_nil] at hleaving
  rw [← hleaving] at hexplored
  rw [List.map_cons, List.nodup_cons] at hnodup
  have hrooms : parent.room = frame.room + 1 := by
    rw [List.length_cons] at hroom
    omega
  have hreported : Reported s config (remember config memo frame.node frame.finding)
      (parent.node :: below.map (·.node)) parent.room frame.node frame.finding := by
    rw [hrooms]
    exact hexplored.reported
  refine ⟨hm.remember hexplored hunknown, hnodup.2, ?_, ?_, ⟨tried' ++ [t], ?_, ?_⟩, hroom', ?_⟩
  · intro x
    rw [Std.HashSet.contains_erase, Bool.and_eq_true, honPath]
    simp only [List.map_cons, absorb_node, List.mem_cons, Bool.not_eq_true', beq_eq_false_iff_ne]
    refine ⟨?_, ?_⟩
    · intro h
      rcases h with ⟨hne, hx⟩
      exact hx.resolve_left (Ne.symm hne)
    · intro hx
      exact ⟨fun hne => hnodup.1 (by simpa [hne] using hx), Or.inr hx⟩
  · intro hmemoize x hx
    have hne : frame.node ≠ x := fun hne => hnodup.1 (by rw [hne]; exact hx)
    rw [getElem?_remember_of_ne hne]
    exact hunknown hmemoize x (List.mem_cons_of_mem _ hx)
  · rw [List.append_assoc]
    exact hleaving'
  · exact (hexplored'.mono grows_remember).absorb (by simp [hleaving']) hmove hreported
  · exact hspine'.mono grows_remember

/-- The last frame tries its next transition, and its node stays where it is. -/
theorem good_try {t : Transition} {pending : List Transition} {finding : Finding}
    (h : Good s config root ⟨frame :: below, onPath, memo⟩)
    (hpending : frame.pending = t :: pending)
    (hexplored : ∀ tried, t ∈ s.leaving frame.node.state →
      Explored s config memo (below.map (·.node)) frame.node frame.room frame.finding tried →
      Explored s config memo (below.map (·.node)) frame.node frame.room finding (tried ++ [t])) :
    Good s config root ⟨{ frame with pending, finding } :: below, onPath, memo⟩ := by
  obtain ⟨hm, hnodup, honPath, hunknown, ⟨tried, hleaving, htried⟩, hroom, hspine⟩ := h
  refine ⟨hm, hnodup, honPath, hunknown, ⟨tried ++ [t], ?_, ?_⟩, hroom, hspine⟩
  · rw [hleaving, hpending, List.append_assoc]
    rfl
  · exact hexplored tried (by simp [hleaving, hpending]) htried

theorem good_enter {t : Transition} {pending : List Transition} {next : Node} {room : Nat}
    (h : Good s config root ⟨frame :: below, onPath, memo⟩)
    (hpending : frame.pending = t :: pending) (hmove : s.move frame.node t = some next)
    (hknown : known? config onPath memo next = none) (hroom : frame.room = room + 1) :
    Good s config root
      ⟨s.frame next room :: { frame with pending } :: below, onPath.insert next, memo⟩ := by
  obtain ⟨hm, hnodup, honPath, hunknown, ⟨tried, hleaving, htried⟩, hdepth, hspine⟩ := h
  obtain ⟨hnew, hnext⟩ := not_mem_of_known?_eq_none honPath hknown
  refine ⟨hm, List.nodup_cons.2 ⟨hnew, hnodup⟩, ?_, ?_, ⟨[], rfl, explored_frame next room⟩, ?_,
    ⟨tried, t, ?_, hmove, htried⟩, hdepth, hspine⟩
  · intro x
    rw [Std.HashSet.contains_insert, Bool.or_eq_true, honPath]
    simp only [List.map_cons, List.mem_cons, beq_iff_eq, Subject.frame, eq_comm (b := x)]
  · intro hmemoize x hx
    rcases List.mem_cons.1 hx with rfl | hx
    · exact hnext hmemoize
    · exact hunknown hmemoize x hx
  · simp only [Subject.frame, List.length_cons]
    omega
  · rw [hleaving, hpending]

theorem sound_tooDeep {t : Transition} {pending : List Transition} {next : Node}
    (h : Good s config root ⟨frame :: below, onPath, memo⟩)
    (hpending : frame.pending = t :: pending) (hmove : s.move frame.node t = some next)
    (hknown : known? config onPath memo next = none) (hroom : frame.room = 0) :
    Sound s config root .tooDeep := by
  obtain ⟨-, hnodup, honPath, -, ⟨tried, hleaving, htried⟩, hdepth, hspine⟩ := h
  obtain ⟨hnew, -⟩ := not_mem_of_known?_eq_none honPath hknown
  have hspine' : Spine s config memo root next ({ frame with pending } :: below) :=
    ⟨⟨tried, t, by rw [hleaving, hpending], hmove, htried⟩, hdepth, hspine⟩
  refine ⟨_, hspine'.trail (List.nodup_cons.2 ⟨hnew, hnodup⟩), ?_⟩
  simp only [List.length_reverse, List.length_cons, List.length_map]
  omega

/-- Every step keeps the invariant, or ends the search with the truth. -/
theorem sound_step {state : State} (h : Good s config root state) :
    Sound s config root (step s config state) := by
  rcases state with ⟨stack, onPath, memo⟩
  rcases stack with _ | ⟨frame, below⟩
  · exact h.stacked.elim
  · unfold step
    dsimp only
    split
    · rename_i hpending
      split
      · exact sound_leave_root h hpending
      · exact sound_leave h hpending
    · rename_i t pending hpending
      split
      · rename_i hmove
        exact good_try h hpending fun tried _ htried => htried.skip hmove
      · rename_i next hmove
        split
        · rename_i finding hknown
          have hgood := good_try h hpending fun tried ht htried =>
            htried.absorb ht hmove (reported_of_known h.remembered h.onPath hknown)
          exact hgood
        · rename_i hknown
          split
          · rename_i hroom
            exact sound_tooDeep h hpending hmove hknown hroom
          · rename_i room hroom
            exact good_enter h hpending hmove hknown hroom

/-! ## One search -/

/-- A run of steps never goes on for ever: the stack gets lighter. -/
theorem step_wellFounded (s : Subject) (config : Config) :
    WellFounded fun next state => step s config state = .running next :=
  Subrelation.wf (fun h => weight_lt_of_step h)
    (InvImage.wf (fun state : State => weight (s.branching + 2) state.stack) Nat.lt_wfRel.wf)

/-- There is a trail of `limit + 1` nodes from a node. -/
def Subject.Deep (s : Subject) (limit : Nat) (x : Node) : Prop :=
  ∃ path, s.Trail [] x path ∧ path.length = limit + 1

/-- What a search from a node answers. -/
def Answered (s : Subject) (config : Config) (root : Node) :
    Except Error (Finding × Memo) → Prop
  | .ok (found, memo) =>
    Remembered s memo ∧ Reported s config memo [] config.maxDepth root found
  | .error error => error = .depthExceeded config.maxDepth ∧ s.Deep config.maxDepth root

theorem answered_run {state : State} (h : Good s config root state) :
    Answered s config root (run s config state) := by
  have hsound := sound_step h
  fun_induction run s config state with
  | case1 state next hstep ih =>
    rw [hstep] at hsound
    exact ih hsound (sound_step hsound)
  | case2 state found memo hstep =>
    rw [hstep] at hsound
    exact hsound
  | case3 state hstep =>
    rw [hstep] at hsound
    exact ⟨rfl, hsound⟩

/-- A search that enters its root has nothing but the root on its path. -/
theorem good_root {room : Nat} (hm : Remembered s memo) (hknown : known? config {} memo root = none)
    (hdepth : config.maxDepth = room + 1) :
    Good s config root
      ⟨[s.frame root room], Std.HashSet.emptyWithCapacity.insert root, memo⟩ := by
  have hpath : ∀ x, ({} : Std.HashSet Node).contains x = true ↔ x ∈ ([] : List Node) := by simp
  refine ⟨hm, by simp [Subject.frame], ?_, ?_, ⟨[], rfl, explored_frame root room⟩, ?_, rfl⟩
  · intro x
    rw [Std.HashSet.contains_insert, Std.HashSet.contains_emptyWithCapacity, Bool.or_false,
      beq_iff_eq, List.map_singleton, List.mem_singleton]
    exact eq_comm
  · intro hmemoize x hx
    obtain rfl : x = root := by simpa [Subject.frame] using hx
    exact (not_mem_of_known?_eq_none hpath hknown).2 hmemoize
  · rw [hdepth]
    rfl

theorem answered_searchFrom (hm : Remembered s memo) :
    Answered s config root (searchFrom s config memo root) := by
  unfold searchFrom
  split
  · rename_i found hknown
    exact ⟨hm, reported_of_known hm (by simp) hknown⟩
  · rename_i hknown
    split
    · rename_i hdepth
      exact ⟨by rw [hdepth], [root], Subject.trail_singleton (by simp), by rw [hdepth]; rfl⟩
    · rename_i room hdepth
      exact answered_run (good_root hm hknown hdepth)

/-! ## All start positions -/

/-- The node that a search for a match begins with. -/
def startNode (start : Nat) : Node := ⟨0, start, start == 0⟩

/-- A final node with position `stop` can be reached from a start position. -/
def Subject.Spans (s : Subject) (start stop : Nat) : Prop :=
  ∃ y, s.Reach (startNode start) y ∧ s.Final y ∧ y.position = stop

/-- Nothing is found from a start position, and without a memory there is no trail too long
for the limit either. -/
structure Quiet (s : Subject) (config : Config) (start : Nat) : Prop where
  no_span : ∀ stop, ¬ s.Spans start stop
  no_trail : config.memoize = false → ¬ s.Deep config.maxDepth (startNode start)

/-- What the search of all start positions before `size` answers. -/
def FoundFirst (s : Subject) (config : Config) (size : Nat) : Except Error (Option Match) → Prop
  | .ok none => ∀ start < size, Quiet s config start
  | .ok (some m) => m.start < size ∧ (∀ start < m.start, Quiet s config start) ∧
      s.Spans m.start m.stop ∧ (∀ stop, s.Spans m.start stop → stop ≤ m.stop) ∧
      (config.memoize = false → ¬ s.Deep config.maxDepth (startNode m.start))
  | .error error => error = .depthExceeded config.maxDepth ∧
      ∃ start < size, (∀ before < start, Quiet s config before) ∧
        s.Deep config.maxDepth (startNode start)

theorem Reported.not_deep (h : Reported s config memo [] config.maxDepth root found)
    (hmemoize : config.memoize = false) : ¬ s.Deep config.maxDepth root := by
  intro h
  rcases h with ⟨path, htrail, hlength⟩
  have := h.fits hmemoize path htrail
  omega

theorem foundFirst_findFrom (start count : Nat) (hm : Remembered s memo)
    (hbefore : ∀ before < start, Quiet s config before) :
    FoundFirst s config (start + count) (findFrom s config memo (List.range' start count)) := by
  induction count generalizing start memo with
  | zero => exact hbefore
  | succ count ih =>
    have hanswer : Answered s config ⟨0, start, start == 0⟩ _ := answered_searchFrom hm
    rw [List.range'_succ, findFrom]
    split
    · rename_i error herror
      rw [herror] at hanswer
      exact ⟨hanswer.1, start, by omega, hbefore, hanswer.2⟩
    · rename_i furthest cut memo' hfound
      rw [hfound] at hanswer
      obtain ⟨-, hreported⟩ := hanswer
      obtain ⟨y, hreach, hy, hyp⟩ := hreported.sound furthest rfl
      have hle : start ≤ furthest := hyp ▸ Subject.position_le_of_reach hreach
      have hstop : (⟨start, furthest - start⟩ : Match).stop = furthest :=
        Nat.add_sub_cancel' hle
      refine ⟨by simp, hbefore, ⟨y, hreach, hy, hyp.trans hstop.symm⟩, ?_, hreported.not_deep⟩
      rintro stop ⟨z, hz, hfinal, rfl⟩
      obtain ⟨q, hq, hle⟩ := hreported.covered (by simp) z (Subject.reachOff_nil.2 hz) hfinal
      rw [hstop]
      cases hq
      exact hle
    · rename_i cut memo' hfound
      rw [hfound] at hanswer
      obtain ⟨hm', hreported⟩ := hanswer
      have hquiet : Quiet s config start := by
        refine ⟨?_, hreported.not_deep⟩
        rintro stop ⟨z, hz, hfinal, rfl⟩
        obtain ⟨q, hq, -⟩ := hreported.covered (by simp) z (Subject.reachOff_nil.2 hz) hfinal
        cases hq
      have hcount : start + (count + 1) = start + 1 + count := by omega
      rw [hcount]
      apply ih (start + 1) hm'
      intro before hlt
      rcases Nat.lt_succ_iff_lt_or_eq.1 hlt with hlt | rfl
      · exact hbefore before hlt
      · exact hquiet

theorem foundFirst_find (s : Subject) (config : Config) :
    FoundFirst s config s.text.size (find s config) := by
  unfold find
  have hfirst : FoundFirst s config (0 + s.text.size) _ :=
    foundFirst_findFrom 0 s.text.size (remembered_empty s) (by simp)
  rw [Nat.zero_add] at hfirst
  rw [List.range_eq_range']
  exact hfirst

end Search

end WeightedAutomata
