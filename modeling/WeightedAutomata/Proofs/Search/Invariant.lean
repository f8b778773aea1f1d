-- What a search under way knows. What is remembered holds for good: it is closed under moves
-- and gives the furthest position. A frame knows what the transitions tried so far can reach
-- off the frames below it, and tells it when all its transitions are tried.
import WeightedAutomata.Proofs.Search.Reach

namespace WeightedAutomata

namespace Search

open Relation

/-! ## What is remembered -/

/-- What is remembered of a node is known of all nodes after it, and is final. -/
structure Remembered (s : Subject) (memo : Memo) : Prop where
  closed : ∀ x v, memo[x]? = some v → ∀ y, s.Next x y → ∃ w, memo[y]? = some w
  furthest : ∀ x v, memo[x]? = some v → s.IsFurthest x v

/-- All that was remembered still is. -/
def Grows (memo memo' : Memo) : Prop :=
  ∀ (x : Node) v, memo[x]? = some v → ∃ w, memo'[x]? = some w

theorem remembered_empty (s : Subject) : Remembered s {} where
  closed := by simp
  furthest := by simp

section remembered

variable {s : Subject} {memo : Memo} {x y : Node} {v : Option Nat} {off : List Node}

theorem Remembered.reach (hm : Remembered s memo) (hx : memo[x]? = some v) (h : s.Reach x y) :
    ∃ w, memo[y]? = some w := by
  induction h with
  | refl => exact ⟨v, hx⟩
  | tail _ hyz ih =>
    obtain ⟨w, hw⟩ := ih
    exact hm.closed _ w hw _ hyz

/-- A way from a remembered node keeps off all nodes that are not remembered. -/
theorem Remembered.reachOff (hm : Remembered s memo) (hx : memo[x]? = some v)
    (hoff : ∀ z ∈ off, memo[z]? = none) (h : s.Reach x y) : s.ReachOff off x y := by
  induction h with
  | refl => exact .refl
  | @tail y z hxy hyz ih =>
    refine ih.tail ⟨hyz, fun hz => ?_⟩
    obtain ⟨w, hw⟩ := hm.reach hx (hxy.tail hyz)
    rw [hoff z hz] at hw
    cases hw

end remembered

/-! ## What is found from a node -/

variable (s : Subject) (config : Config) (memo : Memo)

/-- A finding accounts for a node, as far as the nodes of `off` are kept off: no final node
behind it is further. The node is remembered unless a way was cut. Without a memory all
trails from it were gone along, so that they have room. -/
structure Accounted (off : List Node) (room : Nat) (x : Node) (found : Finding) : Prop where
  covered : x ∉ off → ∀ y, s.ReachOff off x y → s.Final y → Upto found.furthest y.position
  kept : config.memoize = true → found.cut = false → ∃ v, memo[x]? = some v
  fits : config.memoize = false → ∀ path, s.Trail off x path → path.length ≤ room

/-- What a search from a node has to tell when it keeps off the nodes of a path. -/
structure Reported (off : List Node) (room : Nat) (x : Node) (found : Finding) : Prop
    extends Accounted s config memo off room x found where
  sound : ∀ p, found.furthest = some p → ∃ y, s.Reach x y ∧ s.Final y ∧ y.position = p

/-- What is found from a node over the nodes of a path, once some of its transitions are
tried: it accounts for the nodes that they lead to. -/
structure Explored (off : List Node) (x : Node) (room : Nat) (found : Finding)
    (tried : List Transition) : Prop where
  sound : ∀ p, found.furthest = some p → ∃ y, s.Reach x y ∧ s.Final y ∧ y.position = p
  own : s.Final x → Upto found.furthest x.position
  each : ∀ t ∈ tried, ∀ c, s.move x t = some c → Accounted s config memo (x :: off) room c found

variable {s config memo} {off : List Node} {x c : Node} {room : Nat} {found : Finding}
  {tried : List Transition} {t : Transition}

theorem Accounted.mono {memo' : Memo} (hmemo : Grows memo memo')
    (h : Accounted s config memo off room x found) :
    Accounted s config memo' off room x found where
  covered := h.covered
  kept := by
    intro hmemoize hcut
    obtain ⟨v, hv⟩ := h.kept hmemoize hcut
    exact hmemo x v hv
  fits := h.fits

theorem Explored.mono {memo' : Memo} (hmemo : Grows memo memo')
    (h : Explored s config memo off x room found tried) :
    Explored s config memo' off x room found tried :=
  ⟨h.sound, h.own, fun t ht c hc => (h.each t ht c hc).mono hmemo⟩

/-- A finding that is added to another one accounts for all that either did. -/
theorem Accounted.absorb {frame : Frame}
    (h : Accounted s config memo off room x frame.finding ∨
      Accounted s config memo off room x found) :
    Accounted s config memo off room x (frame.absorb found).finding where
  covered := by
    intro hx y hxy hy
    rw [Frame.absorb, upto_further]
    rcases h with h | h
    · exact Or.inl (h.covered hx y hxy hy)
    · exact Or.inr (h.covered hx y hxy hy)
  kept := by
    intro hmemoize hcut
    rw [Frame.absorb, Bool.or_eq_false_iff] at hcut
    rcases h with h | h
    · exact h.kept hmemoize hcut.1
    · exact h.kept hmemoize hcut.2
  fits := by
    rcases h with h | h
    · exact h.fits
    · exact h.fits

/-! ## One transition after another -/

theorem explored_frame (x : Node) (room : Nat) :
    Explored s config memo off x room (s.frame x room).finding [] where
  sound := by
    intro p hp
    simp only [Subject.frame] at hp
    split at hp
    · cases hp
      exact ⟨x, .refl, ‹_›, rfl⟩
    · cases hp
  own := by
    intro hx
    simp only [Subject.frame, if_pos (show s.isFinal x.state = true from hx)]
    exact ⟨x.position, rfl, Nat.le_refl _⟩
  each := by simp

/-- A transition that does not apply leads nowhere. -/
theorem Explored.skip (h : Explored s config memo off x room found tried)
    (ht : s.move x t = none) : Explored s config memo off x room found (tried ++ [t]) := by
  refine ⟨h.sound, h.own, ?_⟩
  intro u hu c hc
  rcases List.mem_append.1 hu with hu | hu
  · exact h.each u hu c hc
  · rw [List.mem_singleton.1 hu, ht] at hc
    cases hc

/-- What is reported of the node that a transition leads to is added to what was found. -/
theorem Explored.absorb {frame : Frame}
    (h : Explored s config memo off frame.node frame.room frame.finding tried)
    (hleaving : t ∈ s.leaving frame.node.state) (ht : s.move frame.node t = some c)
    (hc : Reported s config memo (frame.node :: off) frame.room c found) :
    Explored s config memo off frame.node frame.room (frame.absorb found).finding
      (tried ++ [t]) where
  sound := by
    intro p hp
    rcases eq_some_of_further hp with hp | hp
    · exact h.sound p hp
    · obtain ⟨y, hcy, hy⟩ := hc.sound p hp
      exact ⟨y, .head ⟨t, hleaving, ht⟩ hcy, hy⟩
  own := fun hx => (upto_further _ _ _).2 (Or.inl (h.own hx))
  each := by
    intro u hu d hd
    rcases List.mem_append.1 hu with hu | hu
    · exact .absorb (Or.inl (h.each u hu d hd))
    · rw [List.mem_singleton.1 hu, ht, Option.some.injEq] at hd
      exact .absorb (Or.inr (hd ▸ hc.toAccounted))

/-! ## Leaving a node -/

theorem grows_remember : Grows memo (remember config memo x found) := by
  intro y v hy
  unfold remember
  split
  · rw [Std.HashMap.getElem?_insert]
    split
    · exact ⟨_, rfl⟩
    · exact ⟨v, hy⟩
  · exact ⟨v, hy⟩

/-- Once all transitions of a node are tried, what was found is what has to be told. -/
theorem Explored.reported (h : Explored s config memo off x room found (s.leaving x.state)) :
    Reported s config (remember config memo x found) off (room + 1) x found where
  sound := h.sound
  covered := by
    intro _ y hxy hy
    rcases Subject.eq_or_reachOff_cons hxy with rfl | ⟨c, ⟨t, ht, htc⟩, hc, hcy⟩
    · exact h.own hy
    · exact (h.each t ht c htc).covered hc y hcy hy
  kept := by
    intro hmemoize hcut
    refine ⟨found.furthest, ?_⟩
    simp [remember, hmemoize, hcut]
  fits := by
    intro hmemoize path hpath
    rcases hpath.uncons with rfl | ⟨c, rest, rfl, ⟨t, ht, htc⟩, hrest⟩
    · exact Nat.succ_le_succ (Nat.zero_le _)
    · exact Nat.succ_le_succ ((h.each t ht c htc).fits hmemoize rest hrest)

theorem eq_or_getElem?_of_insert {y : Node} {v w : Option Nat}
    (h : (memo.insert x v)[y]? = some w) : y = x ∧ w = v ∨ memo[y]? = some w := by
  rw [Std.HashMap.getElem?_insert] at h
  split at h
  · rename_i hxy
    exact Or.inl ⟨(eq_of_beq hxy).symm, (Option.some.inj h).symm⟩
  · exact Or.inr h

/-- If all that a node leads to is remembered, what was found from the node is the furthest: no
way from it goes through the nodes of the path, which are not remembered. -/
theorem Explored.isFurthest (hm : Remembered s memo)
    (h : Explored s config memo off x room found (s.leaving x.state))
    (hoff : ∀ z ∈ x :: off, memo[z]? = none) (hnext : ∀ c, s.Next x c → ∃ v, memo[c]? = some v) :
    s.IsFurthest x found.furthest := by
  refine ⟨h.sound, ?_⟩
  intro z hxz hz
  rcases ReflTransGen.cases_head hxz with rfl | ⟨c, hxc, hcz⟩
  · exact h.own hz
  · obtain ⟨w, hw⟩ := hnext c hxc
    obtain ⟨t, ht, htc⟩ := hxc
    have hc : c ∉ x :: off := fun hc => by
      rw [hoff c hc] at hw
      cases hw
    exact (h.each t ht c htc).covered hc z (hm.reachOff hw hoff hcz) hz

/-- What was found from a node without a cut holds for good: all that the node leads to is
remembered then. -/
theorem Remembered.remember (hm : Remembered s memo)
    (h : Explored s config memo off x room found (s.leaving x.state))
    (hunknown : config.memoize = true → ∀ z ∈ x :: off, memo[z]? = none) :
    Remembered s (remember config memo x found) := by
  by_cases hkeep : (config.memoize && !found.cut) = true
  · have hgrows : Grows memo (Search.remember config memo x found) := grows_remember
    simp only [Search.remember, if_pos hkeep] at hgrows ⊢
    simp only [Bool.and_eq_true, Bool.not_eq_true'] at hkeep
    have hnext : ∀ c, s.Next x c → ∃ v, memo[c]? = some v := by
      rintro c ⟨t, ht, htc⟩
      exact (h.each t ht c htc).kept hkeep.1 hkeep.2
    refine ⟨?_, ?_⟩
    · intro y v hy z hyz
      have hz : ∃ w, memo[z]? = some w := by
        rcases eq_or_getElem?_of_insert hy with ⟨rfl, -⟩ | hy
        · exact hnext z hyz
        · exact hm.closed y v hy z hyz
      obtain ⟨w, hw⟩ := hz
      exact hgrows z w hw
    · intro y v hy
      rcases eq_or_getElem?_of_insert hy with ⟨rfl, rfl⟩ | hy
      · exact h.isFurthest hm (hunknown hkeep.1) hnext
      · exact hm.furthest y v hy
  · rw [Search.remember, if_neg hkeep]
    exact hm

end Search

end WeightedAutomata
