-- A request that is refused changes nothing. What replaces an automaton by units of another one is
-- made of many edits, and once the first of them has begun none is refused.
import WeightedAutomata.Proofs.Expansion.Growth
import WeightedAutomata.Proofs.Selection
import WeightedAutomata.Proofs.Units

namespace WeightedAutomata

/-- Either the request is carried out and leaves sound tables, or it is refused and leaves `a` as it
was. It does not break. -/
def Outcome.AllOrNothing {α : Type} (o : Outcome α) (a : Automaton) : Prop :=
  (∃ value after, o = .done value after ∧ after.violation? = none) ∨ ∃ error, o = .refused error a

theorem Outcome.Sound.allOrNothing {α : Type} {o : Outcome α} {a : Automaton} (h : o.Sound)
    (hkept : ∀ error after, o = .refused error after → after = a) : o.AllOrNothing a := by
  cases o with
  | done value after => exact Or.inl ⟨value, after, rfl, h⟩
  | refused error after =>
    obtain rfl := hkept error after rfl
    exact Or.inr ⟨error, rfl⟩
  | broken fault => exact h.elim

theorem Outcome.EditsUnit.allOrNothing {α : Type} {o : Outcome α} {a : Automaton} {u : Nat}
    {allowed : Machine → Prop} {answer : Machine → α} {change : Machine → Machine}
    (h : o.EditsUnit a u allowed answer change) : o.AllOrNothing a := by
  rcases h.refused with hdone | hrefused
  · obtain ⟨m, hu, -⟩ := h.done_iff.1 hdone
    obtain ⟨value, after, ho⟩ := hdone
    exact Or.inl ⟨value, after, ho, (h.done m value after hu ho).2.sound⟩
  · exact Or.inr hrefused

namespace Automaton

variable {a source : Automaton}

/-! ## Requests with a source -/

theorem allOrNothing_appendRange (ha : a.violation? = none) (hsource : source.violation? = none)
    (first count : Nat) : (a.appendRange source first count).AllOrNothing a := by
  apply (sound_appendRange ha hsource first count).allOrNothing
  intro error after h
  rw [appendRange_eq ha hsource] at h
  split at h
  · cases h
    rfl
  · split at h
    · cases h
    · cases h
      rfl

theorem allOrNothing_copyUnits (ha : a.violation? = none) (hsource : source.violation? = none)
    (selection : Selection) : (a.copyUnits source selection).AllOrNothing a := by
  rcases copyUnits_cases hsource a selection with
    ⟨-, h⟩ | ⟨u, -, -, h⟩ | ⟨summary, after, h, hafter⟩
  · exact Or.inl ⟨{}, a, h, ha⟩
  · exact Or.inr ⟨_, h⟩
  · exact Or.inl ⟨summary, after, h, hafter.sound⟩

/-- Of all selections only a single unit that does not exist is refused. -/
theorem copyUnits_refused_iff (hsource : source.violation? = none) (a : Automaton)
    (selection : Selection) :
    (∃ error after, a.copyUnits source selection = .refused error after) ↔
      ∃ u, selection = .single u ∧ source.units.length ≤ u := by
  refine ⟨?_, ?_⟩
  · rintro ⟨error, after, hrefused⟩
    rcases copyUnits_cases hsource a selection with ⟨-, h⟩ | ⟨u, hu, hle, -⟩ | ⟨_, _, h, -⟩
    · rw [h] at hrefused
      cases hrefused
    · exact ⟨u, hu, hle⟩
    · rw [h] at hrefused
      cases hrefused
  · rintro ⟨u, rfl, hle⟩
    exact ⟨.badUnit u source.units.length, a, if_neg (Nat.not_lt.2 hle)⟩

theorem allOrNothing_becomeExpansion (hsource : source.violation? = none) (a : Automaton)
    (unit : Option Nat) : (a.becomeExpansion source unit).AllOrNothing a := by
  unfold becomeExpansion
  rcases exists_expand hsource unit with ⟨d, hd, hsound⟩ | ⟨u, -, -, hrefused⟩
  · rw [hd]
    exact Or.inl ⟨(), d, rfl, hsound⟩
  · rw [hrefused]
    exact Or.inr ⟨_, rfl⟩

/-- Of all expansions only that of a unit that does not exist is refused. -/
theorem becomeExpansion_refused_iff (hsource : source.violation? = none) (a : Automaton)
    (unit : Option Nat) :
    (∃ error after, a.becomeExpansion source unit = .refused error after) ↔
      ∃ u, unit = some u ∧ source.units.length ≤ u := by
  refine ⟨?_, ?_⟩
  · rintro ⟨error, after, hrefused⟩
    rcases exists_expand hsource unit with ⟨d, hd, -⟩ | ⟨u, hu, hle, -⟩
    · unfold becomeExpansion at hrefused
      rw [hd] at hrefused
      cases hrefused
    · exact ⟨u, hu, hle⟩
  · rintro ⟨u, rfl, hle⟩
    have hu : source.machines[u]? = none := List.getElem?_eq_none (by rwa [length_machines])
    refine ⟨.badUnit u source.units.length, a, ?_⟩
    unfold becomeExpansion
    rw [expand_badUnit hsource hu]

/-! ## All requests -/

/-- What is refused changes nothing, and what has begun is carried through. -/
structure NothingHalfDone (a source : Automaton) : Prop where
  addStates : ∀ u count final, (a.addStates u count final).AllOrNothing a
  addTransition : ∀ u t, (a.addTransition u t).AllOrNothing a
  setFinal : ∀ u state final, (a.setFinal u state final).AllOrNothing a
  append : (a.append source).AllOrNothing a
  appendRange : ∀ first count, (a.appendRange source first count).AllOrNothing a
  copyUnits : ∀ selection, (a.copyUnits source selection).AllOrNothing a
  becomeExpansion : ∀ unit, (a.becomeExpansion source unit).AllOrNothing a
  /-- A selection is refused only where it is a single unit that does not exist. -/
  selectionRefused : ∀ selection,
    (∃ error after, a.copyUnits source selection = .refused error after) ↔
      ∃ u, selection = .single u ∧ source.units.length ≤ u
  /-- Once `a` is given up for the selected units, all of them are appended. -/
  selectionBegun : ∀ selection, ∃ summary after,
    Automaton.copyUnits.copy source selection source.units.length = .done summary after
  /-- An expansion is refused only where it is that of a unit that does not exist. -/
  expansionRefused : ∀ unit,
    (∃ error after, a.becomeExpansion source unit = .refused error after) ↔
      ∃ u, unit = some u ∧ source.units.length ≤ u
  /-- An expansion is what the edits lead to that it can be grown by, one after another. -/
  expansionGrown : ∀ unit, a.becomeExpansion source unit = a.becomeGrown source unit

/-- Requests to sound tables, with sound tables as their source, leave nothing half done. -/
theorem nothing_half_done (ha : a.violation? = none) (hsource : source.violation? = none) :
    a.NothingHalfDone source where
  addStates := fun u count final => (editsUnit_addStates ha u count final).allOrNothing
  addTransition := fun u t => (editsUnit_addTransition ha u t).allOrNothing
  setFinal := fun u state final => (editsUnit_setFinal ha u state final).allOrNothing
  append := allOrNothing_appendRange ha hsource 0 _
  appendRange := allOrNothing_appendRange ha hsource
  copyUnits := allOrNothing_copyUnits ha hsource
  becomeExpansion := allOrNothing_becomeExpansion hsource a
  selectionRefused := copyUnits_refused_iff hsource a
  selectionBegun := by
    intro selection
    obtain ⟨after, hafter, -⟩ := exists_copy hsource selection
    exact ⟨_, after, hafter⟩
  expansionRefused := becomeExpansion_refused_iff hsource a
  expansionGrown := becomeExpansion_eq_becomeGrown hsource a

theorem nothing_half_done_fourUnits : betweenEmpty.violation? = none ∧
    fourUnits.violation? = none ∧ betweenEmpty.NothingHalfDone fourUnits :=
  ⟨by decide, by decide, nothing_half_done (by decide) (by decide)⟩

end Automaton

end WeightedAutomata
