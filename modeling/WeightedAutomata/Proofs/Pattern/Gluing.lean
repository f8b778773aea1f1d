-- Ways through two sets of arcs that share only the joints. Such a way turns from one set to the
-- other at joints alone, so it is a sequence of ways through one set from joint to joint.
import WeightedAutomata.Proofs.Pattern.Passage

namespace WeightedAutomata

namespace Pattern

open Relation

/-- The state of a port. -/
def Port.state (entry exit : Nat) : Port → Nat
  | .entry => entry
  | .exit => exit

/-- The state of a joint. Two joints may be one state. -/
def Joint.state (entry middle exit : Nat) : Joint → Nat
  | .entry => entry
  | .middle => middle
  | .exit => exit

section gluing

variable {state : Joint → Nat} {L : Joint × Nat → Joint × Nat → Prop}
  {R S : Nat × Nat → Nat × Nat → Prop}

/-- Where the steps of `R` lead from joint to joint, the leaps of `L` do. -/
def Covers (state : Joint → Nat) (L : Joint × Nat → Joint × Nat → Prop)
    (R : Nat × Nat → Nat × Nat → Prop) : Prop :=
  ∀ i k p q, ReflTransGen R (state i, p) (state k, q) → ReflTransGen L (i, p) (k, q)

/-- Two joints are one state, and leaps lead from each to the other. -/
structure Same (state : Joint → Nat) (L : Joint × Nat → Joint × Nat → Prop) (i j : Joint) :
    Prop where
  state_eq : state i = state j
  there : ∀ p, ReflTransGen L (i, p) (j, p)
  back : ∀ p, ReflTransGen L (j, p) (i, p)

/-- A joint is a state of its own that no step comes to or leaves. -/
structure Apart (state : Joint → Nat) (R : Nat × Nat → Nat × Nat → Prop) (i : Joint) : Prop where
  not_left : ∀ p y, ¬ R (state i, p) y
  not_reached : ∀ p x, ¬ R x (state i, p)
  own : ∀ k, state k = state i → k = i

theorem Same.refl (i : Joint) : Same state L i i := ⟨rfl, fun _ => .refl, fun _ => .refl⟩

/-- The steps of a part are covered by its leaps, where each joint is a port of the part or
apart from it. -/
theorem covers_of_part (joint : Port → Joint) (T : Port × Nat → Port × Nat → Prop)
    (hpart : ∀ v w, ReflTransGen R (state (joint v.1), v.2) (state (joint w.1), w.2) → T v w)
    (hleap : ∀ v w, T v w → L (joint v.1, v.2) (joint w.1, w.2))
    (hjoints : ∀ i, (∃ port, Same state L i (joint port)) ∨ Apart state R i) :
    Covers state L R := by
  intro i k p q h
  rcases hjoints i with ⟨port, hi⟩ | hi
  · rcases hjoints k with ⟨port', hk⟩ | hk
    · rw [hi.state_eq, hk.state_eq] at h
      have hstep := hleap (port, p) (port', q) (hpart (port, p) (port', q) h)
      exact ((hi.there p).tail hstep).trans (hk.back q)
    · rcases h.cases_tail with heq | ⟨x, -, hx⟩
      · simp only [Prod.mk.injEq] at heq
        rw [hk.own i heq.1.symm, heq.2]
      · exact absurd hx (hk.not_reached q x)
  · rcases h.cases_head with heq | ⟨y, hy, -⟩
    · simp only [Prod.mk.injEq] at heq
      rw [hi.own k heq.1.symm, heq.2]
    · exact absurd hy (hi.not_left p y)

/-- Steps that are leaps themselves are covered, if leaps lead between joints of one state. -/
theorem covers_of_steps (hsame : ∀ i k p, state i = state k → ReflTransGen L (i, p) (k, p))
    (hstep : ∀ x y, R x y → ∃ i k p, x = (state i, p) ∧ y = (state k, p) ∧ L (i, p) (k, p)) :
    Covers state L R := by
  intro i k p q h
  generalize hy : (state k, q) = y at h
  induction h generalizing k q with
  | refl =>
    simp only [Prod.mk.injEq] at hy
    obtain ⟨hstate, rfl⟩ := hy
    exact hsame i k q hstate.symm
  | @tail y z _ hyz ih =>
    obtain ⟨j, j', r, rfl, rfl, hleap⟩ := hstep y z hyz
    simp only [Prod.mk.injEq] at hy
    obtain ⟨hstate, rfl⟩ := hy
    exact ((ih j q rfl).tail hleap).trans (hsame j' k q hstate.symm)

/-- A way that goes on in the other set turns at a joint. -/
theorem joint_of_turn (hturn : ∀ x y z, R x y → S y z → ∃ j, y.1 = state j) {j : Joint} {r : Nat}
    {y z : Nat × Nat} (h : ReflTransGen R (state j, r) y) (hyz : S y z) : ∃ k, y.1 = state k := by
  rcases h.cases_tail with rfl | ⟨x, -, hxy⟩
  · exact ⟨j, rfl⟩
  · exact hturn x y z hxy hyz

/-- Two sets of steps that meet at joints only are covered together. -/
theorem Covers.or (hR : Covers state L R) (hS : Covers state L S)
    (hRS : ∀ x y z, R x y → S y z → ∃ j, y.1 = state j)
    (hSR : ∀ x y z, S x y → R y z → ∃ j, y.1 = state j) :
    Covers state L fun v w => R v w ∨ S v w := by
  intro i k p q h
  suffices hlast : ∀ y, ReflTransGen (fun v w => R v w ∨ S v w) (state i, p) y →
      ∃ j r, ReflTransGen L (i, p) (j, r) ∧
        (ReflTransGen R (state j, r) y ∨ ReflTransGen S (state j, r) y) by
    obtain ⟨j, r, hleaps, hlast | hlast⟩ := hlast _ h
    · exact hleaps.trans (hR j k r q hlast)
    · exact hleaps.trans (hS j k r q hlast)
  intro y hy
  induction hy with
  | refl => exact ⟨i, p, .refl, Or.inl .refl⟩
  | @tail y z _ hyz ih =>
    obtain ⟨j, r, hleaps, hlast | hlast⟩ := ih
    · rcases hyz with hyz | hyz
      · exact ⟨j, r, hleaps, Or.inl (hlast.tail hyz)⟩
      · obtain ⟨j', hj'⟩ := joint_of_turn hRS hlast hyz
        obtain ⟨y, r'⟩ := y
        obtain rfl : y = state j' := hj'
        exact ⟨j', r', hleaps.trans (hR j j' r r' hlast), Or.inr (.single hyz)⟩
    · rcases hyz with hyz | hyz
      · obtain ⟨j', hj'⟩ := joint_of_turn hSR hlast hyz
        obtain ⟨y, r'⟩ := y
        obtain rfl : y = state j' := hj'
        exact ⟨j', r', hleaps.trans (hS j j' r r' hlast), Or.inl (.single hyz)⟩
      · exact ⟨j, r, hleaps, Or.inr (hlast.tail hyz)⟩

/-- Leaps that are ways through the steps lead along steps. -/
theorem reflTransGen_of_leaps
    (h : ∀ v w, L v w → ReflTransGen R (state v.1, v.2) (state w.1, w.2)) {v w : Joint × Nat}
    (hvw : ReflTransGen L v w) : ReflTransGen R (state v.1, v.2) (state w.1, w.2) := by
  induction hvw with
  | refl => exact .refl
  | tail _ hstep ih => exact ih.trans (h _ _ hstep)

end gluing

end Pattern

end WeightedAutomata
