-- What a search is about, apart from how it goes. Nodes are joined by the moves of the
-- transitions. A search from a node asks for the furthest final node there is a way to, and
-- the paths it goes along are trails: they come to no node twice.
import Mathlib.Data.List.Chain
import Mathlib.Data.List.Nodup
import Mathlib.Logic.Relation
import WeightedAutomata.Search.Basic

namespace WeightedAutomata

namespace Search

open Relation

/-! ## The furthest of several positions -/

/-- Some position was found, and `p` is not behind it. -/
def Upto (furthest : Option Nat) (p : Nat) : Prop := ∃ q, furthest = some q ∧ p ≤ q

theorem upto_further (a b : Option Nat) (p : Nat) :
    Upto (further a b) p ↔ Upto a p ∨ Upto b p := by
  unfold Upto
  rcases a with _ | q
  · simp [further]
  · rcases b with _ | r
    · simp [further]
    · simp only [further, Option.some.injEq, exists_eq_left']
      omega

theorem eq_some_of_further {a b : Option Nat} {p : Nat} (h : further a b = some p) :
    a = some p ∨ b = some p := by
  cases a with
  | none => exact Or.inr h
  | some q =>
    cases b with
    | none => exact Or.inl h
    | some r =>
      simp only [further, Option.some.injEq] at h
      rcases Nat.le_total q r with hle | hle
      · exact Or.inr (by rw [← h, Nat.max_eq_right hle])
      · exact Or.inl (by rw [← h, Nat.max_eq_left hle])

namespace Subject

variable (s : Subject)

/-! ## Ways between nodes -/

/-- One transition leads from a node to another. -/
def Next (x y : Node) : Prop := ∃ t ∈ s.leaving x.state, s.move x t = some y

/-- Transitions lead from a node to another. -/
def Reach : Node → Node → Prop := ReflTransGen s.Next

/-- Transitions lead from a node to another, and to no node of `off` on the way. -/
def ReachOff (off : List Node) : Node → Node → Prop :=
  ReflTransGen fun x y => s.Next x y ∧ y ∉ off

def Final (x : Node) : Prop := s.isFinal x.state = true

/-- The furthest position of a final node that can be reached, or that there is none. -/
structure IsFurthest (x : Node) (furthest : Option Nat) : Prop where
  found : ∀ p, furthest = some p → ∃ y, s.Reach x y ∧ s.Final y ∧ y.position = p
  most : ∀ y, s.Reach x y → s.Final y → Upto furthest y.position

/-- A path from a node that comes to no node twice, and to no node of `off`. -/
structure Trail (off : List Node) (x : Node) (path : List Node) : Prop where
  head : path.head? = some x
  chain : path.IsChain s.Next
  nodup : path.Nodup
  off : ∀ y ∈ path, y ∉ off

variable {s} {x y : Node} {off : List Node}

theorem reachOff_nil : s.ReachOff [] x y ↔ s.Reach x y := by
  simp only [ReachOff, Reach, List.not_mem_nil, not_false_eq_true, and_true]

theorem reach_of_reachOff (h : s.ReachOff off x y) : s.Reach x y := by
  induction h with
  | refl => exact .refl
  | tail _ hyz ih => exact ih.tail hyz.1

/-- Cutting a way at the last place where it comes through its first node: what is left
keeps off that node as well. -/
theorem eq_or_reachOff_cons (h : s.ReachOff off x y) :
    y = x ∨ ∃ c, s.Next x c ∧ c ∉ x :: off ∧ s.ReachOff (x :: off) c y := by
  induction h with
  | refl => exact Or.inl rfl
  | @tail y z _ hyz ih =>
    obtain ⟨hnext, hz⟩ := hyz
    by_cases hzx : z = x
    · exact Or.inl hzx
    · have hz' : z ∉ x :: off := by simp [hzx, hz]
      rcases ih with rfl | ⟨c, hxc, hc, hcy⟩
      · exact Or.inr ⟨z, hnext, hz', .refl⟩
      · exact Or.inr ⟨c, hxc, hc, hcy.tail ⟨hnext, hz'⟩⟩

theorem trail_singleton (hx : x ∉ off) : s.Trail off x [x] where
  head := rfl
  chain := List.isChain_singleton x
  nodup := by simp
  off := by simpa using hx

/-- A trail is its first node alone, or goes on from the next node, off the first as well. -/
theorem Trail.uncons {path : List Node} (h : s.Trail off x path) :
    path = [x] ∨ ∃ c rest, path = x :: rest ∧ s.Next x c ∧ s.Trail (x :: off) c rest := by
  obtain ⟨hhead, hchain, hnodup, hoff⟩ := h
  cases path with
  | nil => cases hhead
  | cons x' rest =>
    obtain rfl : x' = x := by simpa using hhead
    cases rest with
    | nil => exact Or.inl rfl
    | cons c rest =>
      rw [List.isChain_cons_cons] at hchain
      rw [List.nodup_cons] at hnodup
      refine Or.inr ⟨c, c :: rest, rfl, hchain.1, rfl, hchain.2, hnodup.2, ?_⟩
      intro y hy
      rw [List.mem_cons, not_or]
      exact ⟨fun hyx => hnodup.1 (hyx ▸ hy), hoff y (List.mem_cons_of_mem _ hy)⟩

/-! ## Positions -/

/-- A move stays at its position or reads one character. -/
theorem position_of_move {t : Transition} (h : s.move x t = some y) :
    y.position = x.position ∨ y.position = x.position + 1 ∧ x.position < s.text.size := by
  have hlt : ∀ c, s.text[x.position]? = some c → x.position < s.text.size := fun c hc =>
    (Array.getElem?_eq_some_iff.1 hc).1
  unfold move at h
  split at h
  · cases h; exact Or.inl rfl
  · cases h; exact Or.inl rfl
  · cases h
  · cases h
  · split at h
    · cases h; exact Or.inl rfl
    · cases h
  · cases h; exact Or.inr ⟨rfl, hlt _ ‹_›⟩
  · split at h
    · cases h; exact Or.inr ⟨rfl, hlt _ ‹_›⟩
    · cases h
  · obtain ⟨target, -, rfl⟩ := Option.map_eq_some_iff.1 h
    exact Or.inr ⟨rfl, hlt _ ‹_›⟩

theorem position_le_of_reach (h : s.Reach x y) : x.position ≤ y.position := by
  induction h with
  | refl => exact Nat.le_refl _
  | tail _ hyz ih =>
    obtain ⟨t, -, hmove⟩ := hyz
    have := position_of_move hmove
    omega

end Subject

end Search

end WeightedAutomata
