-- What a search keeps book of, in terms of the graph. The stack is a path without repetition
-- along edges, and the set of its nodes is kept beside it. What is remembered is closed under
-- edges, free of cycles and off the path, and gives the length of the longest way to a final state.
import WeightedAutomata.Proofs.Leftmost
import WeightedAutomata.Proofs.Search.Course

namespace WeightedAutomata

open Relation

/-- How long the longest way from a node to a final state is, or that there is none. -/
def Machine.IsLongest (m : Machine) (text : List Char) (v : Nat × Nat) : Option Nat → Prop
  | none => ∀ state stop, m.IsFinal state → ¬ ReflTransGen (m.Moves text) v (state, stop)
  | some length =>
    (∃ state, m.IsFinal state ∧ ReflTransGen (m.Moves text) v (state, v.2 + length)) ∧
      ∀ state stop, m.IsFinal state → ReflTransGen (m.Moves text) v (state, stop) →
        stop ≤ v.2 + length

namespace Search

/-! ## Exact books -/

/-- The path of a search: its nodes are distinct and are those of the set, and the last transition
tried at each of them leads to the node above it. -/
structure PathExact (m : Machine) (text : List Char) (state : State) : Prop where
  nodup : (state.stack.map (·.node)).Nodup
  onPath : ∀ x, state.onPath.contains x = true ↔ x ∈ state.stack.map (·.node)
  pending : ∀ frame ∈ state.stack, frame.pending <:+ m.leaving frame.node.state
  successor : state.stack.IsChain fun upper lower =>
    ∃ tried t, m.leaving lower.node.state = tried ++ t :: lower.pending ∧
      m.Leads text t lower.node.position upper.node.pair
  atStart : ∀ frame ∈ state.stack, (frame.node.atStart = true ↔ frame.node.position = 0)

/-- The memory of a search. A value is the position that the longest way comes to. -/
structure MemoExact (m : Machine) (text : List Char) (memo : Memo) : Prop where
  closed : ∀ x : Node, x ∈ memo → ∀ w, m.Moves text x.pair w → nodeOf w ∈ memo
  acyclic : ∀ x : Node, x ∈ memo → ¬ TransGen (m.Moves text) x.pair x.pair
  longest : ∀ (x : Node) furthest, memo[x]? = some furthest →
    ∃ length, m.IsLongest text x.pair length ∧ furthest = length.map (x.position + ·)
  atStart : ∀ x : Node, x ∈ memo → (x.atStart = true ↔ x.position = 0)

theorem mem_memo_iff {memo : Memo} {x : Node} : x ∈ memo ↔ ∃ v, memo[x]? = some v := by
  rw [Std.HashMap.mem_iff_isSome_getElem?, Option.isSome_iff_exists]

section exact

variable {s : Subject} {config : Config} {m : Machine} {text : List Char} {memo : Memo}
  {root x : Node} {frame : Frame} {below : List Frame} {state : State}

/-! ## The memory -/

/-- A cycle of the graph is one that a search could go around. -/
theorem Subject.Presents.transGen_of_moves (hs : s.Presents m text) {v w : Nat × Nat}
    (hv : v.2 ≤ text.length) (h : TransGen (m.Moves text) v w) :
    TransGen s.Next (nodeOf v) (nodeOf w) := by
  obtain ⟨c, hvc, hcw⟩ := TransGen.head'_iff.1 h
  have hnext : s.Next (nodeOf v) (nodeOf c) := (hs.next_iff hv _).2 ⟨c, hvc, rfl⟩
  have hreach : s.Reach (nodeOf c) (nodeOf w) :=
    (hs.reach_iff (hvc.position_le hv) _).2 ⟨w, hcw, rfl⟩
  exact TransGen.head'_iff.2 ⟨_, hnext, hreach⟩

/-- The furthest position of a final node is where the longest way comes to. -/
theorem Subject.Presents.exists_isLongest (hs : s.Presents m text) (hx : s.Proper x)
    {furthest : Option Nat} (h : s.IsFurthest x furthest) :
    ∃ length, m.IsLongest text x.pair length ∧ furthest = length.map (x.position + ·) := by
  have hreach : ∀ y, s.Reach x y ↔ ∃ w, ReflTransGen (m.Moves text) x.pair w ∧ y = nodeOf w := by
    intro y
    rw [← hs.reach_iff (v := x.pair) (hs.size_text ▸ hx.2), ← hx.1]
  have hmost : ∀ state stop, m.IsFinal state →
      ReflTransGen (m.Moves text) x.pair (state, stop) → Upto furthest stop := by
    intro state stop hfinal hway
    exact h.most (nodeOf (state, stop)) ((hreach _).2 ⟨_, hway, rfl⟩) ((hs.final state).2 hfinal)
  cases furthest with
  | none =>
    refine ⟨none, ?_, rfl⟩
    intro state stop hfinal hway
    obtain ⟨q, hq, -⟩ := hmost state stop hfinal hway
    cases hq
  | some p =>
    obtain ⟨y, hxy, hfinal, rfl⟩ := h.found p rfl
    have hle := Subject.position_le_of_reach hxy
    obtain ⟨w, hway, rfl⟩ := (hreach y).1 hxy
    have hstop : x.position + (w.2 - x.position) = w.2 := Nat.add_sub_cancel' hle
    refine ⟨some (w.2 - x.position), ⟨⟨w.1, (hs.final w.1).1 hfinal, ?_⟩, ?_⟩, ?_⟩
    · change ReflTransGen (m.Moves text) x.pair (w.1, x.position + (w.2 - x.position))
      rw [hstop]
      exact hway
    · intro state stop hstate hway'
      obtain ⟨q, hq, hle'⟩ := hmost state stop hstate hway'
      cases hq
      exact hle'.trans (Nat.le_of_eq hstop.symm)
    · exact congrArg some hstop.symm

theorem Settled.memoExact (hs : s.Presents m text) (h : Settled s config memo) :
    MemoExact m text memo where
  closed := by
    intro x hx w hmoves
    obtain ⟨v, hv⟩ := mem_memo_iff.1 hx
    have hnext := (hs.next_iff_of_proper (h.proper x v hv) _).2 ⟨w, hmoves, rfl⟩
    exact mem_memo_iff.2 (h.closed x v hv _ hnext)
  acyclic := by
    intro x hx hcycle
    obtain ⟨v, hv⟩ := mem_memo_iff.1 hx
    have hproper := h.proper x v hv
    have hway := hs.transGen_of_moves (hs.size_text ▸ hproper.2) hcycle
    rw [← hproper.1] at hway
    exact h.acyclic x v hv hway
  longest := fun x furthest hx => hs.exists_isLongest (h.proper x _ hx) (h.furthest x _ hx)
  atStart := by
    intro x hx
    obtain ⟨v, hv⟩ := mem_memo_iff.1 hx
    exact (h.proper x v hv).atStart_iff

/-! ## The path -/

theorem Stacked.pending (h : Stacked s config memo root (frame :: below)) :
    ∀ lower ∈ frame :: below, lower.pending <:+ s.leaving lower.node.state := by
  obtain ⟨⟨tried, hleaving, -⟩, -, hspine⟩ := h
  refine List.forall_mem_cons.2 ⟨⟨tried, hleaving.symm⟩, ?_⟩
  generalize frame.node = child at hspine
  induction below generalizing child with
  | nil => exact List.forall_mem_nil _
  | cons lower below ih =>
    obtain ⟨⟨tried, t, hleaving, -, -⟩, -, hbelow⟩ := hspine
    refine List.forall_mem_cons.2 ⟨⟨tried ++ [t], ?_⟩, ih _ hbelow⟩
    rw [hleaving, List.append_assoc]
    rfl

/-- Each frame below another has last tried the transition to its node. -/
theorem Spine.successor (hs : s.Presents m text) (hproper : ∀ lower ∈ below, s.Proper lower.node)
    (h : Spine s config memo root frame.node below) :
    (frame :: below).IsChain fun upper lower =>
      ∃ tried t, m.leaving lower.node.state = tried ++ t :: lower.pending ∧
        m.Leads text t lower.node.position upper.node.pair := by
  induction below generalizing frame with
  | nil => exact List.isChain_singleton _
  | cons lower below ih =>
    obtain ⟨⟨tried, t, hleaving, hmove, -⟩, -, hbelow⟩ := h
    obtain ⟨hlower, hrest⟩ := List.forall_mem_cons.1 hproper
    rw [hlower.1, hs.move_eq_some_iff (hs.size_text ▸ hlower.2)] at hmove
    obtain ⟨w, hleads, hw⟩ := hmove
    rw [hs.leaving] at hleaving
    rw [List.isChain_cons_cons, hw]
    exact ⟨⟨tried, t, hleaving, hleads⟩, ih hrest hbelow⟩

theorem Good.pathExact (hs : s.Presents m text) (hroot : s.Proper root)
    (h : Good s config root state) : PathExact m text state := by
  have hproper := h.proper hs hroot
  obtain ⟨stack, onPath, memo⟩ := state
  refine ⟨h.nodup, h.onPath, ?_, ?_, fun frame hframe => (hproper frame hframe).atStart_iff⟩
  · cases stack with
    | nil => exact List.forall_mem_nil _
    | cons frame below =>
      simp only [← hs.leaving]
      exact h.stacked.pending
  · cases stack with
    | nil => exact List.isChain_nil
    | cons frame below =>
      exact h.stacked.2.2.successor hs (List.forall_mem_cons.1 hproper).2

/-- No node of the path is remembered, with or without a memory. -/
theorem Good.not_mem_memo (h : Good s config root state) (hsettled : Settled s config state.memo) :
    ∀ frame ∈ state.stack, frame.node ∉ state.memo := by
  intro frame hframe hmem
  obtain ⟨v, hv⟩ := mem_memo_iff.1 hmem
  have hnone : state.memo[frame.node]? = none := by
    cases hmemoize : config.memoize with
    | false => exact hsettled.plain hmemoize frame.node
    | true => exact h.unknown hmemoize frame.node (List.mem_map_of_mem hframe)
  rw [hnone] at hv
  cases hv

/-- A search ends where it leaves its root, which is then alone on the path. -/
theorem Good.exists_root (h : Good s config root state) {found : Finding}
    (hstep : step s config state = .finished found memo) : ∃ last, state.stack = [last] := by
  rcases step_leaves_or_keeps s config state with ⟨-, hnil⟩ | ⟨last, below, hstack, -, -, hnil⟩
  · have hstacked := h.stacked
    rw [hnil found memo hstep] at hstacked
    exact hstacked.elim
  · exact ⟨last, by rw [hstack, hnil found memo hstep]⟩

/-- What the last step of a search leaves: the root alone was on the path, so that nothing is, and
a memory that is exact again. -/
theorem Course.exact_of_finished {start : Nat} (hs : s.Presents m text)
    (h : Course s config start state) {found : Finding}
    (hstep : Search.step s config state = .finished found memo) :
    MemoExact m text memo ∧
      ∃ last, state.stack = [last] ∧ ∀ x, (state.onPath.erase last.node).contains x = false := by
  obtain ⟨hroot, hgood, hsettled⟩ := h.good hs
  have hnext := hsettled.step hs hroot hgood
  rw [hstep] at hnext
  obtain ⟨last, hlast⟩ := hgood.exists_root hstep
  refine ⟨hnext.memoExact hs, last, hlast, ?_⟩
  intro x
  have hpath := hgood.onPath x
  rw [hlast, List.map_singleton, List.mem_singleton] at hpath
  rw [Std.HashSet.contains_erase, Bool.and_eq_false_iff,
    ← Bool.not_eq_true (state.onPath.contains x), hpath]
  by_cases hx : last.node = x
  · exact Or.inl (by simp [hx])
  · exact Or.inr (Ne.symm hx)

end exact

end Search

namespace Automaton

open Search

/-- The moves of a search are along the edges of the graph. At every state that finding goes on
from, the stack is a path without repetition whose nodes the set holds, and what is remembered is
exact and off the path. A search that ends leaves nothing on the path, and an exact memory to the
next. -/
theorem path_and_memory_exact {a : Automaton} {m : Machine} (hsound : a.violation? = none)
    (hfirst : a.machines.head? = some m) (text : String) (config : Search.Config) :
    ∃ s, a.subject text = .ok s ∧
      (∀ v t y, v.2 ≤ text.toList.length → (s.move (nodeOf v) t = some y ↔
        ∃ w, m.Leads text.toList t v.2 w ∧ y = nodeOf w)) ∧
      (∀ start memo, Carried s config start memo → MemoExact m text.toList memo) ∧
      ∀ start state, Course s config start state →
        Search.find s config = findOn s config start (run s config state) ∧
        PathExact m text.toList state ∧ MemoExact m text.toList state.memo ∧
        (∀ frame ∈ state.stack, frame.node ∉ state.memo) ∧
        ∀ found memo, step s config state = .finished found memo →
          MemoExact m text.toList memo ∧ ∃ last, state.stack = [last] ∧
            ∀ x, (state.onPath.erase last.node).contains x = false := by
  obtain ⟨s, hs, hpresents⟩ := exists_subject hsound hfirst text
  refine ⟨s, hs, fun v t y hv => hpresents.move_eq_some_iff hv t y, ?_, ?_⟩
  · intro start memo hcarried
    exact (hcarried.settled hpresents).memoExact hpresents
  · intro start state hcourse
    obtain ⟨hroot, hgood, hsettled⟩ := hcourse.good hpresents
    refine ⟨hcourse.find_eq, hgood.pathExact hpresents hroot, hsettled.memoExact hpresents,
      hgood.not_mem_memo hsettled, ?_⟩
    intro found memo hstep
    exact hcourse.exact_of_finished hpresents hstep

/-- The search for the letter a goes around the loop, which is cut, and then over the letter and
back. The final node is remembered then, and the start node will not be. -/
theorem exists_course_loopThenA {s : Search.Subject} (hs : s.Presents loopThenA "a".toList) :
    ∃ state, Course s ⟨true, 2⟩ 0 state ∧ state.stack.map (·.node) = [⟨0, 0, true⟩] ∧
      state.memo[(⟨1, 1, false⟩ : Node)]? = some (some 1) := by
  have hleaving : s.leaving 0 = loopThenA.transitions := hs.leaving 0
  have hlast : s.leaving 1 = [] := hs.leaving 1
  have hfinal : s.isFinal 1 = true := (hs.final 1).2 ⟨1, rfl, rfl⟩
  have htext : s.text[0]? = some 'a' := hs.getElem?_text 0
  have henter : Course s ⟨true, 2⟩ 0 ⟨[⟨⟨0, 0, true⟩, s.leaving 0,
      ⟨if s.isFinal 0 then some 0 else none, false⟩, 1⟩],
      Std.HashSet.emptyWithCapacity.insert ⟨0, 0, true⟩, {}⟩ :=
    .enter .first (by rw [hs.size_text]; decide) (by simp [known?]) rfl
  generalize (if s.isFinal 0 then some 0 else none) = furthest at henter
  rw [hleaving] at henter
  have hloop : Course s ⟨true, 2⟩ 0 ⟨[⟨⟨0, 0, true⟩, loopThenA.transitions.tail,
      ⟨furthest, true⟩, 1⟩], Std.HashSet.emptyWithCapacity.insert ⟨0, 0, true⟩, {}⟩ := by
    refine henter.step ?_
    cases furthest <;>
      simp [step, loopThenA, Subject.move, known?, Frame.absorb, further, Transition.inputLabel]
  have hletter : Course s ⟨true, 2⟩ 0 ⟨[⟨⟨1, 1, false⟩, [], ⟨some 1, false⟩, 0⟩,
      ⟨⟨0, 0, true⟩, [], ⟨furthest, true⟩, 1⟩],
      (Std.HashSet.emptyWithCapacity.insert ⟨0, 0, true⟩).insert ⟨1, 1, false⟩, {}⟩ := by
    refine hloop.step ?_
    simp [step, htext, loopThenA, Subject.move, known?, Label.ofChar, Transition.inputLabel,
      Subject.frame, hlast, hfinal]
  have hback : Course s ⟨true, 2⟩ 0 ⟨[⟨⟨0, 0, true⟩, [], ⟨further furthest (some 1), true⟩, 1⟩],
      ((Std.HashSet.emptyWithCapacity.insert ⟨0, 0, true⟩).insert ⟨1, 1, false⟩).erase
        ⟨1, 1, false⟩, ({} : Memo).insert ⟨1, 1, false⟩ (some 1)⟩ := by
    refine hletter.step ?_
    simp [step, Frame.absorb, Search.remember]
  exact ⟨_, hback, rfl, by simp⟩

theorem path_and_memory_exact_loopThenA :
    (ofMachines .acceptor [loopThenA]).violation? = none ∧
    ∃ s state, (ofMachines .acceptor [loopThenA]).subject "a" = .ok s ∧
      Course s ⟨true, 2⟩ 0 state ∧ state.memo[(⟨1, 1, false⟩ : Node)]? = some (some 1) ∧
      PathExact loopThenA "a".toList state ∧ MemoExact loopThenA "a".toList state.memo := by
  obtain ⟨s, hs, -, -, hstates⟩ :=
    path_and_memory_exact (a := ofMachines .acceptor [loopThenA]) (by decide) rfl "a" ⟨true, 2⟩
  obtain ⟨s', hs', hpresents⟩ := exists_subject (a := ofMachines .acceptor [loopThenA])
    (by decide) rfl "a"
  obtain rfl : s = s' := Except.ok.inj (hs.symm.trans hs')
  obtain ⟨state, hcourse, -, hvalue⟩ := exists_course_loopThenA hpresents
  obtain ⟨-, hpath, hmemo, -⟩ := hstates 0 state hcourse
  exact ⟨by decide, s, state, hs, hcourse, hvalue, hpath, hmemo⟩

end Automaton

end WeightedAutomata
