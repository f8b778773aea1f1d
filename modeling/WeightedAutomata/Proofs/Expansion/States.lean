-- What the states of an expansion are. They are the origins that can be reached, numbered in the
-- order of a breadth-first search, and each is left as the state that it stands for is left.
import Mathlib.Data.List.NodupEquivFin
import Mathlib.SetTheory.Cardinal.Finite
import WeightedAutomata.Proofs.Expansion.BreadthFirst
import WeightedAutomata.Proofs.Expansion.Paths

namespace WeightedAutomata

open Expansion

namespace Machine

variable {m m' : Machine} {origins : List Origin}

/-! ## States and origins -/

/-- A transition that leaves state `k` as `t` leaves the state that `k` stands for: it carries the
same, and leads to the state of the origin that `t` leads to. -/
structure IsImage (e : Fin m'.flags.length ≃ {o // m.Reaches o}) (k : Fin m'.flags.length)
    (t t' : Transition) : Prop where
  source : t'.source = k
  carried : t'.carried = t.carried
  target : ∃ j : Fin m'.flags.length, t'.target = j ∧ (e j : Origin) = .of t

/-- The states of `m'` stand for the origins that can be reached in `m`, one for one. -/
structure NumbersOrigins (m m' : Machine) (e : Fin m'.flags.length ≃ {o // m.Reaches o}) :
    Prop where
  name : m'.name = m.name
  start : ∀ k, (e k : Origin) = .start ↔ (k : Nat) = 0
  flags : ∀ k, m'.flags[k]? = m.flags[(e k : Origin).state]?
  leaving : ∀ k, List.Forall₂ (IsImage e k) (m.leaving (e k : Origin).state) (m'.leaving k)
  entered : ∀ t' ∈ m'.transitions, ∃ k : Fin m'.flags.length, t'.target = k ∧
    (e k : Origin).label = t'.inputLabel
  inOrder : m.MeetsInOrder (List.ofFn fun k => (e k : Origin))

theorem Splits.lt_length_flags (h : m.Splits origins m') {k : Nat} {o : Origin}
    (hk : origins[k]? = some o) : k < m'.flags.length := by
  rw [h.length_flags]
  exact (List.getElem?_eq_some_iff.1 hk).1

/-- Origins in their places, as the numbers of the states. -/
theorem Splits.exists_equiv (h : m.Splits origins m') (horder : m.MeetsInOrder origins) :
    ∃ e : Fin m'.flags.length ≃ {o // m.Reaches o},
      ∀ k : Fin m'.flags.length, origins[(k : Nat)]? = some (e k : Origin) := by
  let places := h.nodup.getEquiv origins
  let reached := Equiv.subtypeEquivRight fun o => horder.mem_iff (o := o)
  refine ⟨(finCongr h.length_flags).trans (places.trans reached), fun k => ?_⟩
  have hlt : (k : Nat) < origins.length := h.length_flags ▸ k.isLt
  rw [List.getElem?_eq_getElem hlt]
  rfl

theorem Splits.numbersOrigins (h : m.Splits origins m') (horder : m.MeetsInOrder origins)
    {e : Fin m'.flags.length ≃ {o // m.Reaches o}}
    (he : ∀ k : Fin m'.flags.length, origins[(k : Nat)]? = some (e k : Origin)) :
    m.NumbersOrigins m' e := by
  -- Whatever a state of the expansion leads to is in its place among the origins.
  have htarget : ∀ (k : Fin m'.flags.length), ∀ t ∈ m.leaving (e k : Origin).state,
      ∃ j : Fin m'.flags.length, (image origins k t).target = j ∧ (e j : Origin) = .of t := by
    intro k t ht
    have hplace := h.getElem?_target (he k) ht
    refine ⟨⟨_, h.lt_length_flags hplace⟩, rfl, ?_⟩
    have hj := he ⟨_, h.lt_length_flags hplace⟩
    rw [hplace, Option.some.injEq] at hj
    exact hj.symm
  refine ⟨h.name, ?_, ?_, ?_, ?_, ?_⟩
  · intro k
    have hzero : origins[0]? = some .start := by rw [← List.head?_eq_getElem?, h.first]
    refine ⟨?_, ?_⟩
    · intro hk
      have hplace := he k
      rw [hk, ← hzero] at hplace
      have hlt : (k : Nat) < origins.length := h.length_flags ▸ k.isLt
      exact (List.getElem?_inj hlt h.nodup).1 hplace
    · intro hk
      have hplace := he k
      rw [hk, hzero, Option.some.injEq] at hplace
      exact hplace.symm
  · exact fun k => h.getElem?_flags (he k)
  · intro k
    rw [h.leaving (he k), List.forall₂_map_right_iff, List.forall₂_same]
    exact fun t ht => ⟨rfl, rfl, htarget k t ht⟩
  · intro t' ht'
    obtain ⟨k, o, t, hk, ht, rfl⟩ := h.exists_of_mem ht'
    have ho := he ⟨k, h.lt_length_flags hk⟩
    rw [hk, Option.some.injEq] at ho
    obtain ⟨j, hj, hof⟩ := htarget ⟨k, h.lt_length_flags hk⟩ t (ho ▸ ht)
    refine ⟨j, hj, ?_⟩
    rw [hof]
    rfl
  · have hlist : List.ofFn (fun k => (e k : Origin)) = origins := by
      apply List.ext_getElem?
      intro i
      rw [List.getElem?_ofFn]
      split
      · exact (he ⟨i, _⟩).symm
      · rw [List.getElem?_eq_none (by rw [← h.length_flags]; omega)]
    rw [hlist]
    exact horder

end Machine

namespace Automaton

variable {a : Automaton} {u : Nat} {m : Machine}

/-- The expansion of a unit has one state for each origin that can be reached, numbered in the
order of a breadth-first search. No such search goes on for ever. -/
theorem states_becomeExpansion (hsound : a.violation? = none) (hu : a.machines[u]? = some m)
    (hstates : m.flags ≠ []) (target : Automaton) :
    (WellFounded fun next state => m.Visits state next) ∧
    ∃ d m', target.becomeExpansion a (some u) = .done () d ∧ d.machines = [m'] ∧
      Nat.card {o // m.Reaches o} = m'.flags.length ∧
      ∃ e : Fin m'.flags.length ≃ {o // m.Reaches o}, m.NumbersOrigins m' e := by
  have hclosed := (fits_of_violation?_eq_none hsound m (List.mem_of_getElem? hu)).closed
  obtain ⟨m', hexpand, hsplits⟩ := Machine.splits_scan hclosed hstates
  have horder := Machine.meetsInOrder_scan hclosed
  obtain ⟨e, he⟩ := hsplits.exists_equiv horder
  refine ⟨m.visits_wellFounded, ofMachines a.schema [m'] a.inputSymbols a.outputSymbols, m',
    ?_, machines_ofMachines .., ?_, e, hsplits.numbersOrigins horder he⟩
  · unfold becomeExpansion
    rw [expand_some hsound hu hexpand]
  · rw [← Nat.card_congr e, Nat.card_fin]

/-- State 1 is entered by two labels and without reading, and reads on the spot. State 2 is not
reached. -/
def splitOnEntry : Machine where
  name := "split"
  flags := [2, 1, 0]
  transitions := [{ source := 0, target := 1, input := some (.ofChar 'a') },
    { source := 1, target := 1, input := some (.ofChar 'b') },
    { source := 2, target := 0, input := some (.ofChar 'c') },
    { source := 1, target := 0, input := some .epsilon },
    { source := 0, target := 1, input := some .epsilon }]

theorem states_becomeExpansion_splitOnEntry :
    (ofMachines .acceptor [⟨"none", [], []⟩, splitOnEntry]).violation? = none ∧
      splitOnEntry.flags ≠ [] ∧
      ∃ d m', (empty .acceptor).becomeExpansion
          (ofMachines .acceptor [⟨"none", [], []⟩, splitOnEntry]) (some 1) = .done () d ∧
        d.machines = [m'] ∧ Nat.card {o // splitOnEntry.Reaches o} = m'.flags.length ∧
        ∃ e : Fin m'.flags.length ≃ {o // splitOnEntry.Reaches o},
          splitOnEntry.NumbersOrigins m' e :=
  ⟨by decide, by decide,
    (states_becomeExpansion (by decide) (u := 1) rfl (by decide) (empty .acceptor)).2⟩

end Automaton

end WeightedAutomata
