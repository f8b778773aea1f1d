-- A larger limit. It gives every frame more room and changes nothing else, so a search that
-- ends under a limit takes the same steps to the same end under every larger one.
import WeightedAutomata.Search.Find

namespace WeightedAutomata

namespace Search

/-- A frame with more room. -/
def Frame.raise (extra : Nat) (frame : Frame) : Frame := { frame with room := frame.room + extra }

/-- A search under way with more room for every frame. -/
def State.raise (extra : Nat) (state : State) : State :=
  { state with stack := state.stack.map (Frame.raise extra) }

variable {s : Subject} {config : Config} {state next : State} {found : Finding} {memo : Memo}
  (extra limit : Nat)

/-- The limit tells in the room of the frames only. -/
theorem step_limit : step s { config with maxDepth := limit } state = step s config state := by
  unfold step known? remember
  rfl

theorem step_raise_of_running (h : step s config state = .running next) :
    step s config (state.raise extra) = .running (next.raise extra) := by
  rcases state with ⟨stack, onPath, memo⟩
  rcases stack with _ | ⟨frame, below⟩
  · cases h
  · unfold step at h
    dsimp only at h
    split at h
    · rename_i hpending
      split at h
      · cases h
      · cases h
        simp [step, State.raise, Frame.raise, hpending, Frame.absorb]
    · rename_i t pending hpending
      split at h
      · rename_i hmove
        cases h
        simp [step, State.raise, Frame.raise, hpending, hmove]
      · rename_i node hmove
        split at h
        · rename_i finding hknown
          cases h
          simp [step, State.raise, Frame.raise, hpending, hmove, hknown, Frame.absorb]
        · rename_i hknown
          split at h
          · cases h
          · rename_i room hroom
            cases h
            have hraised : frame.room + extra = room + extra + 1 := by omega
            simp [step, State.raise, Frame.raise, hpending, hmove, hknown, hraised, Subject.frame]

theorem step_raise_of_finished (h : step s config state = .finished found memo) :
    step s config (state.raise extra) = .finished found memo := by
  rcases state with ⟨stack, onPath, memo⟩
  rcases stack with _ | ⟨frame, below⟩
  · exact h
  · unfold step at h
    dsimp only at h
    split at h
    · rename_i hpending
      split at h
      · simpa [step, State.raise, Frame.raise, hpending] using h
      · cases h
    · split at h
      · cases h
      · split at h
        · cases h
        · split at h
          · cases h
          · cases h

/-! ## Whole searches -/

/-- A run goes on with the run from the next state, or ends with its step. -/
theorem run_eq (s : Subject) (config : Config) (state : State) :
    run s config state = match step s config state with
      | .running next => run s config next
      | .finished finding memo => .ok (finding, memo)
      | .tooDeep => .error (.depthExceeded config.maxDepth) := by
  rw [run]
  split
  · rename_i h
    rw [h]
  · rename_i h
    rw [h]
  · rename_i h
    rw [h]

theorem run_raise (h : run s config state = .ok (found, memo)) :
    run s { config with maxDepth := limit } (state.raise extra) = .ok (found, memo) := by
  rw [run_eq, step_limit]
  fun_induction run s config state with
  | case1 state next hstep ih =>
    rw [step_raise_of_running extra hstep]
    dsimp only
    rw [run_eq, step_limit]
    exact ih h
  | case2 state found' memo' hstep =>
    rw [step_raise_of_finished extra hstep]
    exact h
  | case3 state hstep => cases h

variable {limit} {root : Node} {answer : Finding × Memo}

theorem searchFrom_mono (hle : config.maxDepth ≤ limit)
    (h : searchFrom s config memo root = .ok answer) :
    searchFrom s { config with maxDepth := limit } memo root = .ok answer := by
  unfold searchFrom at h ⊢
  have hknown : known? { config with maxDepth := limit } {} memo root =
      known? config {} memo root := rfl
  rw [hknown]
  split at h
  · exact h
  · split at h
    · cases h
    · rename_i room hroom
      obtain ⟨extra, hextra⟩ := Nat.exists_eq_add_of_le hle
      have hlimit : limit = room + extra + 1 := by omega
      subst hlimit
      exact run_raise extra _ h

theorem findFrom_mono {starts : List Nat} {found : Option Match} (hle : config.maxDepth ≤ limit)
    (h : findFrom s config memo starts = .ok found) :
    findFrom s { config with maxDepth := limit } memo starts = .ok found := by
  induction starts generalizing memo with
  | nil => exact h
  | cons start starts ih =>
    unfold findFrom at h ⊢
    split at h
    · cases h
    · rename_i hsearch
      rw [searchFrom_mono hle hsearch]
      exact h
    · rename_i hsearch
      rw [searchFrom_mono hle hsearch]
      exact ih h

/-- What is found under a limit is found under every larger one. -/
theorem find_mono {found : Option Match} (hle : config.maxDepth ≤ limit)
    (h : find s config = .ok found) : find s { config with maxDepth := limit } = .ok found :=
  findFrom_mono hle h

end Search

end WeightedAutomata
