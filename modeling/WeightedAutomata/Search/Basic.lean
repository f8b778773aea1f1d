-- The search for the longest match from one position. It goes depth first along the
-- transitions of a unit over nodes of state and position, on an explicit stack of bounded
-- depth. A node on the current path is not entered again, and what is known of a node for
-- good may be remembered.
import Std.Data.HashMap
import Std.Data.HashSet
import WeightedAutomata.TransitionIndex

namespace WeightedAutomata

namespace Search

/-! ## Nodes and moves -/

/-- A place of the search. `atStart` tells that no character was read since position 0. -/
structure Node where
  state : Nat
  position : Nat
  atStart : Bool
  deriving DecidableEq, Hashable

/-- What is searched: a unit, as the transitions that leave each state and the flags of the
states, and the characters of a text. -/
structure Subject where
  outgoing : Array (List Transition)
  flags : Array Flags
  text : Array Char

namespace Subject

/-- The transitions that leave a state, in order. -/
def leaving (s : Subject) (state : Nat) : List Transition := s.outgoing[state]?.getD []

def isFinal (s : Subject) (state : Nat) : Bool := (s.flags[state]?.getD 0).isFinal

/-- Where a negated class leads that has its code points on the transitions leaving
`marker`: to the target of the last of them, unless one of them reads `c`. A final marker
leads nowhere, and neither does one that no transition leaves. -/
def outsideSet? (s : Subject) (marker : Nat) (c : Char) : Option Nat :=
  let listed := s.leaving marker
  if s.isFinal marker || listed.any (fun t => decide (t.inputLabel = .ofChar c)) then none
  else listed.getLast?.map (·.target)

/-- The node that a transition leads to from a node, if it applies there. Behind the last
character only epsilon and the end anchor do. -/
def move (s : Subject) (node : Node) (t : Transition) : Option Node :=
  let stay : Node := { node with state := t.target }
  let read (target : Nat) : Node := ⟨target, node.position + 1, false⟩
  match t.inputLabel, s.text[node.position]? with
  | .epsilon, _ => some stay
  | .endAnchor, none => some stay
  | .endAnchor, some _ => none
  | _, none => none
  | .startAnchor, some _ => if node.atStart then some stay else none
  | .anyChar, some _ => some (read t.target)
  | .symbol code, some c => if code = c.toNat then some (read t.target) else none
  | .notInSet, some c => (s.outsideSet? t.target c).map read

end Subject

/-! ## The stack -/

/-- How to search. -/
structure Config where
  /-- Remember what was found from a node. -/
  memoize : Bool := true
  /-- How many nodes a path may have. -/
  maxDepth : Nat := 1048576
  deriving DecidableEq

/-- What was found from a node: the position of the furthest final state, and whether a
path was cut because it came back to a node it had gone through. -/
structure Finding where
  furthest : Option Nat
  cut : Bool
  deriving DecidableEq

/-- The further of two positions, where there are any. -/
def further : Option Nat → Option Nat → Option Nat
  | some p, some q => some (max p q)
  | some p, none => some p
  | none, q => q

/-- A node on the current path, with what was found from it so far, the transitions still
to be tried, and how many more nodes fit on the path above it. -/
structure Frame where
  node : Node
  pending : List Transition
  finding : Finding
  room : Nat

/-- What earlier searches found from nodes, for good. -/
abbrev Memo := Std.HashMap Node (Option Nat)

/-- A search under way: the current path from the last node back to the first, the nodes on
it, and what is remembered. -/
structure State where
  stack : List Frame
  onPath : Std.HashSet Node
  memo : Memo

/-- What one step of a search leads to. -/
inductive Progress where
  | running (state : State)
  | finished (finding : Finding) (memo : Memo)
  | tooDeep

/-- The frame of a node that is entered. -/
def Subject.frame (s : Subject) (node : Node) (room : Nat) : Frame where
  node
  pending := s.leaving node.state
  finding := ⟨if s.isFinal node.state then some node.position else none, false⟩
  room

/-- Adds what was found from a node further along the path. -/
def Frame.absorb (frame : Frame) (found : Finding) : Frame :=
  { frame with
    finding := ⟨further frame.finding.furthest found.furthest, frame.finding.cut || found.cut⟩ }

/-- What is known of a node without entering it: what is remembered, or that the path
comes back to it. -/
def known? (config : Config) (onPath : Std.HashSet Node) (memo : Memo) (node : Node) :
    Option Finding :=
  match if config.memoize then memo[node]? else none with
  | some furthest => some ⟨furthest, false⟩
  | none => if onPath.contains node then some ⟨none, true⟩ else none

/-- Remembers a finding that no cut has touched. -/
def remember (config : Config) (memo : Memo) (node : Node) (finding : Finding) : Memo :=
  if config.memoize && !finding.cut then memo.insert node finding.furthest else memo

/-- One step: leaves the last node of the path, or tries its next transition. -/
def step (s : Subject) (config : Config) : State → Progress
  | ⟨[], _, memo⟩ => .finished ⟨none, false⟩ memo
  | ⟨frame :: below, onPath, memo⟩ =>
    match frame.pending with
    | [] =>
      let onPath := onPath.erase frame.node
      let memo := remember config memo frame.node frame.finding
      match below with
      | [] => .finished frame.finding memo
      | parent :: rest => .running ⟨parent.absorb frame.finding :: rest, onPath, memo⟩
    | t :: pending =>
      let frame := { frame with pending }
      match s.move frame.node t with
      | none => .running ⟨frame :: below, onPath, memo⟩
      | some next =>
        match known? config onPath memo next with
        | some finding => .running ⟨frame.absorb finding :: below, onPath, memo⟩
        | none =>
          match frame.room with
          | 0 => .tooDeep
          | room + 1 =>
            .running ⟨s.frame next room :: frame :: below, onPath.insert next, memo⟩

/-! ## Why a search ends

Entering a node takes one from the room and trades one pending transition for those that
leave the node. So the stack gets smaller when a frame weighs its pending transitions by a
power that grows with its room. -/

/-- The most transitions that leave one state. -/
def Subject.branching (s : Subject) : Nat :=
  s.outgoing.toList.foldr (fun leaving most => max leaving.length most) 0

/-- The weight of a frame. -/
def Frame.weight (base : Nat) (frame : Frame) : Nat :=
  (frame.pending.length + 1) * Nat.pow base frame.room

/-- The weight of a stack. -/
def weight (base : Nat) : List Frame → Nat
  | [] => 0
  | frame :: below => frame.weight base + weight base below

theorem length_le_foldr_max (bundles : List (List Transition)) (bundle : List Transition)
    (h : bundle ∈ bundles) :
    bundle.length ≤ bundles.foldr (fun leaving most => max leaving.length most) 0 := by
  induction bundles with
  | nil => cases h
  | cons first rest ih =>
    rcases List.mem_cons.1 h with rfl | h
    · exact Nat.le_max_left _ _
    · exact Nat.le_trans (ih h) (Nat.le_max_right _ _)

theorem length_leaving_le (s : Subject) (state : Nat) :
    (s.leaving state).length ≤ s.branching := by
  unfold Subject.leaving
  rcases h : s.outgoing[state]? with _ | bundle
  · exact Nat.zero_le _
  · exact length_le_foldr_max _ _ (Array.mem_toList_iff.2 (Array.mem_of_getElem? h))

theorem weight_absorb (base : Nat) (frame : Frame) (found : Finding) :
    (frame.absorb found).weight base = frame.weight base := rfl

theorem weight_lt_of_entered (s : Subject) (frame : Frame) (t : Transition) (room : Nat)
    (pending : List Transition) (next : Node) (hp : frame.pending = t :: pending)
    (hr : frame.room = room + 1) :
    (s.frame next room).weight (s.branching + 2) +
      ({ frame with pending } : Frame).weight (s.branching + 2) <
        frame.weight (s.branching + 2) := by
  have hle : (s.leaving next.state).length + 1 < s.branching + 2 :=
    Nat.succ_lt_succ (Nat.lt_succ_of_le (length_leaving_le s next.state))
  have hpos : 0 < Nat.pow (s.branching + 2) room := Nat.pow_pos (by omega)
  have hmul := Nat.mul_lt_mul_of_pos_right hle hpos
  have hsucc : Nat.pow (s.branching + 2) (room + 1) =
      Nat.pow (s.branching + 2) room * (s.branching + 2) := rfl
  simp only [Frame.weight, Subject.frame, hp, hr, List.length_cons, hsucc]
  generalize Nat.pow (s.branching + 2) room = unit at *
  have hsplit : (pending.length + 1 + 1) * (unit * (s.branching + 2)) =
      (pending.length + 1) * (unit * (s.branching + 2)) + (s.branching + 2) * unit := by
    rw [Nat.add_mul (pending.length + 1) 1, Nat.one_mul, Nat.mul_comm (s.branching + 2)]
  omega

theorem weight_lt_of_tried (base : Nat) (hb : 0 < base) (frame : Frame) (t : Transition)
    (pending : List Transition) (hp : frame.pending = t :: pending) :
    ({ frame with pending } : Frame).weight base < frame.weight base := by
  simp only [Frame.weight, hp, List.length_cons]
  exact Nat.mul_lt_mul_of_pos_right (by omega) (Nat.pow_pos hb)

/-- Every step of a running search makes the stack lighter. -/
theorem weight_lt_of_step {s : Subject} {config : Config} {state next : State}
    (h : step s config state = .running next) :
    weight (s.branching + 2) next.stack < weight (s.branching + 2) state.stack := by
  rcases state with ⟨stack, onPath, memo⟩
  cases stack with
  | nil => simp [step] at h
  | cons frame below =>
    simp only [step] at h
    split at h
    · rename_i hp
      split at h
      · cases h
      · cases h
        have hpos : 0 < Nat.pow (s.branching + 2) frame.room := Nat.pow_pos (by omega)
        have hw : frame.weight (s.branching + 2) = Nat.pow (s.branching + 2) frame.room := by
          simp only [Frame.weight, hp, List.length_nil, Nat.zero_add, Nat.one_mul]
        simp only [weight, weight_absorb]
        omega
    · rename_i t pending hp
      have htried := weight_lt_of_tried (s.branching + 2) (by omega) frame t pending hp
      split at h
      · cases h
        simp only [weight]
        omega
      · rename_i node _
        split at h
        · cases h
          simp only [weight, weight_absorb]
          omega
        · split at h
          · cases h
          · rename_i room hr
            cases h
            have := weight_lt_of_entered s frame t room pending node hp hr
            simp only [weight]
            omega

/-! ## Whole searches -/

/-- Takes steps until the search is finished, or a path has no room left. -/
def run (s : Subject) (config : Config) (state : State) : Except Error (Finding × Memo) :=
  match _h : step s config state with
  | .running next => run s config next
  | .finished finding memo => .ok (finding, memo)
  | .tooDeep => .error (.depthExceeded config.maxDepth)
termination_by weight (s.branching + 2) state.stack
decreasing_by exact weight_lt_of_step _h

/-- Searches from a node, with what earlier searches remembered. -/
def searchFrom (s : Subject) (config : Config) (memo : Memo) (root : Node) :
    Except Error (Finding × Memo) :=
  match known? config {} memo root with
  | some finding => .ok (finding, memo)
  | none =>
    match config.maxDepth with
    | 0 => .error (.depthExceeded 0)
    | room + 1 =>
      let onPath := Std.HashSet.emptyWithCapacity.insert root
      run s config ⟨[s.frame root room], onPath, memo⟩

end Search

end WeightedAutomata
