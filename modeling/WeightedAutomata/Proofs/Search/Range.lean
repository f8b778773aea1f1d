-- A search asks for nothing that is not there. Where all transitions lead to states with flags,
-- each frame on the stack of a search is about such a state and a position of the text, and so
-- is each node that a next step may look at.
import WeightedAutomata.Proofs.Search.Run

namespace WeightedAutomata

namespace Search

/-! ## Frames within the tables -/

/-- Every transition leads to a state that has flags. -/
def Subject.Bounded (s : Subject) : Prop :=
  ∀ state, ∀ t ∈ s.leaving state, t.target < s.flags.size

/-- The state of a frame has flags, and so have the states that its transitions lead to. Its
position is in the text or at the end. -/
structure Frame.Within (s : Subject) (frame : Frame) : Prop where
  state : frame.node.state < s.flags.size
  position : frame.node.position ≤ s.text.size
  pending : ∀ t ∈ frame.pending, t.target < s.flags.size

/-- All frames on the stack are within the tables. -/
def State.Within (s : Subject) (state : State) : Prop := ∀ frame ∈ state.stack, frame.Within s

/-- The states that searches of a text go through, whatever is remembered from earlier ones. -/
inductive Visits (s : Subject) (config : Config) : State → Prop
  | enter (start room : Nat) (memo : Memo) : start < s.text.size →
      Visits s config ⟨[s.frame (startNode start) room],
        Std.HashSet.emptyWithCapacity.insert (startNode start), memo⟩
  | step {state next : State} : Visits s config state → step s config state = .running next →
      Visits s config next

section steps

variable {s : Subject} {config : Config}

theorem Subject.Bounded.of_move (hs : s.Bounded) {x y : Node} {t : Transition}
    (ht : t.target < s.flags.size) (h : s.move x t = some y) : y.state < s.flags.size := by
  unfold Subject.move at h
  split at h
  · cases h; exact ht
  · cases h; exact ht
  · cases h
  · cases h
  · split at h
    · cases h; exact ht
    · cases h
  · cases h; exact ht
  · split at h
    · cases h; exact ht
    · cases h
  · rename_i c _ _
    -- Behind a negated class the last transition of the marker decides.
    obtain ⟨target, htarget, rfl⟩ := Option.map_eq_some_iff.1 h
    unfold Subject.outsideSet? at htarget
    dsimp only at htarget
    split at htarget
    · cases htarget
    · obtain ⟨last, hlast, rfl⟩ := Option.map_eq_some_iff.1 htarget
      exact hs _ last (List.mem_of_getLast? hlast)

theorem Subject.Bounded.frame (hs : s.Bounded) {x : Node} (hstate : x.state < s.flags.size)
    (hposition : x.position ≤ s.text.size) (room : Nat) : (s.frame x room).Within s where
  state := hstate
  position := hposition
  pending := hs x.state

theorem Frame.Within.tail {frame : Frame} {t : Transition} {pending : List Transition}
    (h : frame.Within s) (hp : frame.pending = t :: pending) :
    ({ frame with pending } : Frame).Within s where
  state := h.state
  position := h.position
  pending := by
    intro u hu
    apply h.pending
    rw [hp]
    exact List.mem_cons_of_mem _ hu

theorem Frame.Within.absorb {frame : Frame} (h : frame.Within s) (found : Finding) :
    (frame.absorb found).Within s := ⟨h.state, h.position, h.pending⟩

/-- One step stays within the tables. -/
theorem State.Within.step (hs : s.Bounded) {state next : State} (h : state.Within s)
    (hstep : Search.step s config state = .running next) : next.Within s := by
  obtain ⟨stack, onPath, memo⟩ := state
  cases stack with
  | nil => simp [Search.step] at hstep
  | cons frame below =>
    obtain ⟨hframe, hbelow⟩ := List.forall_mem_cons.1 h
    simp only [Search.step] at hstep
    split at hstep
    · split at hstep
      · cases hstep
      · cases hstep
        obtain ⟨hparent, hrest⟩ := List.forall_mem_cons.1 hbelow
        exact List.forall_mem_cons.2 ⟨hparent.absorb _, hrest⟩
    · rename_i t pending hp
      have htail := hframe.tail hp
      split at hstep
      · cases hstep
        exact List.forall_mem_cons.2 ⟨htail, hbelow⟩
      · rename_i y hmove
        split at hstep
        · cases hstep
          exact List.forall_mem_cons.2 ⟨htail.absorb _, hbelow⟩
        · split at hstep
          · cases hstep
          · cases hstep
            have ht : t.target < s.flags.size := hframe.pending t (by rw [hp]; simp)
            have hposition := Subject.position_of_move hmove
            have hle := hframe.position
            have hy : y.position ≤ s.text.size := by omega
            exact List.forall_mem_cons.2
              ⟨hs.frame (hs.of_move ht hmove) hy _, List.forall_mem_cons.2 ⟨htail, hbelow⟩⟩

/-- A whole search stays within the tables. -/
theorem Visits.within (hs : s.Bounded) (hstates : 0 < s.flags.size) {state : State}
    (h : Visits s config state) : state.Within s := by
  induction h with
  | enter start room memo hlt =>
    intro frame hframe
    rw [List.mem_singleton.1 hframe]
    exact hs.frame hstates (Nat.le_of_lt hlt) room
  | step _ hstep ih => exact ih.step hs hstep

end steps

end Search

end WeightedAutomata
