-- Appending is associative. It does not matter whether automata are appended one after another, or
-- joined first and appended together: the same requests are refused, and the same tables come out
-- of those that are carried out.
import WeightedAutomata.Proofs.Appending

namespace WeightedAutomata

namespace Outcome

/-! ## One request after another -/

variable {α β : Type} {o : Outcome α} {next : α → Automaton → Outcome β}

theorem andThen_eq_done_iff {value : β} {after : Automaton} :
    o.andThen next = .done value after ↔
      ∃ told between, o = .done told between ∧ next told between = .done value after := by
  cases o with
  | done told between =>
    refine ⟨fun h => ⟨told, between, rfl, h⟩, ?_⟩
    rintro ⟨_, _, hdone, h⟩
    cases hdone
    exact h
  | refused error between => simp [andThen]
  | broken fault => simp [andThen]

theorem Sound.andThen (ho : o.Sound)
    (hnext : ∀ told between, o = .done told between → (next told between).Sound) :
    (o.andThen next).Sound := by
  cases o with
  | done told between => exact hnext told between rfl
  | refused error between => exact ho
  | broken fault => exact ho.elim

end Outcome

namespace Automaton

variable {a b c : Automaton}

/-! ## Tables that give way -/

/-- Of three tables the first one with names stays, in whichever order they come together. -/
theorem inheritTable_assoc (first second third : SymbolTable) :
    inheritTable (inheritTable first second) third =
      inheritTable first (inheritTable second third) := by
  simp only [inheritTable_eq]
  by_cases hfirst : first.Nameless
  · by_cases hsecond : second.Nameless
    · simp only [hfirst, hsecond, true_and, not_true, and_false, if_false]
      -- Neither has names, so the third one takes the place of either.
      by_cases hthird : third.Nameless
      · simp [hsecond, hthird]
      · simp [hthird]
    · simp [hfirst, hsecond]
  · simp [hfirst]

/-! ## One append -/

/-- Sound tables are determined by their units, their schema and their symbols. -/
theorem eq_of_machines_eq (ha : a.violation? = none) (hb : b.violation? = none)
    (hmachines : a.machines = b.machines) (hschema : a.schema = b.schema)
    (hsymbols : ∀ side, a.symbols side = b.symbols side) : a = b := by
  rw [eq_ofMachines ha, eq_ofMachines hb, hmachines, hschema]
  have hinputs : a.inputSymbols = b.inputSymbols := hsymbols .input
  have houtputs : a.outputSymbols = b.outputSymbols := hsymbols .output
  rw [hinputs, houtputs]

/-- The symbols that an automaton brings along. Without units it brings none. -/
def ownSymbols (a : Automaton) (side : Side) : SymbolTable :=
  if a.units = [] then .empty else a.symbols side

theorem ownSymbols_eq (hunits : a.units ≠ []) (side : Side) :
    a.ownSymbols side = a.symbols side := if_neg hunits

/-- What stands after all units of `b` came behind those of `a`. -/
structure Joined (a b after : Automaton) : Prop where
  machines : after.machines = a.machines ++ b.machines
  schema : after.schema = b.schema
  symbols : ∀ side, after.symbols side = inheritTable (a.ownSymbols side) (b.symbols side)
  sound : after.violation? = none

theorem Joined.units_ne_nil {after : Automaton} (h : Joined a b after) (hunits : b.units ≠ []) :
    after.units ≠ [] := by
  rw [ne_eq, ← machines_eq_nil_iff, h.machines, List.append_eq_nil_iff, machines_eq_nil_iff b]
  exact fun hnil => hunits hnil.2

theorem joined_of_append (ha : a.violation? = none) (hb : b.violation? = none) {after : Automaton}
    (h : a.append b = .done () after) : Joined a b after := by
  obtain ⟨hmachines, hschema, hsymbols, hsound⟩ := appended_of_appendRange ha hb h
  refine ⟨?_, hschema, ?_, hsound⟩
  · rw [hmachines, take_rangeLength, List.drop_zero, ← length_machines, List.take_length]
  · intro side
    rw [hsymbols, inheritTable_eq]
    rfl

/-- All units that there are can be appended where the schemas agree. -/
theorem exists_append_iff (ha : a.violation? = none) (hb : b.violation? = none)
    (hunits : b.units ≠ []) :
    (∃ after, a.append b = .done () after) ↔ a.units = [] ∨ a.schema = b.schema := by
  have hlength : 0 < b.rangeLength 0 b.units.length := by
    have := List.length_pos_iff.2 hunits
    unfold rangeLength
    omega
  unfold append
  rw [exists_appendRange_iff ha hb]
  exact and_iff_right hlength

theorem sound_append (ha : a.violation? = none) (hb : b.violation? = none) : (a.append b).Sound :=
  sound_appendRange ha hb 0 _

/-! ## Two appends -/

/-- Appends `b`, and then `c`. -/
def appendEach (a b c : Automaton) : Outcome Unit :=
  (a.append b).andThen fun _ ab => ab.append c

/-- Appends `c` to `b`, and what that leads to. -/
def appendJoined (a b c : Automaton) : Outcome Unit :=
  (b.append c).andThen fun _ bc => a.append bc

theorem exists_appendEach_iff (ha : a.violation? = none) (hb : b.violation? = none)
    (hc : c.violation? = none) (hunits : b.units ≠ []) (hunits' : c.units ≠ []) :
    (∃ after, a.appendEach b c = .done () after) ↔
      b.schema = c.schema ∧ (a.units = [] ∨ a.schema = b.schema) := by
  simp only [appendEach, Outcome.andThen_eq_done_iff]
  refine ⟨?_, ?_⟩
  · rintro ⟨after, _, ab, hab, hafter⟩
    have hjoined := joined_of_append ha hb hab
    have hagrees := (exists_append_iff hjoined.sound hc hunits').1 ⟨after, hafter⟩
    refine ⟨?_, (exists_append_iff ha hb hunits).1 ⟨ab, hab⟩⟩
    rw [← hjoined.schema]
    exact hagrees.resolve_left (hjoined.units_ne_nil hunits)
  · rintro ⟨hschema, hagrees⟩
    obtain ⟨ab, hab⟩ := (exists_append_iff ha hb hunits).2 hagrees
    have hjoined := joined_of_append ha hb hab
    obtain ⟨after, hafter⟩ := (exists_append_iff hjoined.sound hc hunits').2
      (Or.inr (hjoined.schema.trans hschema))
    exact ⟨after, (), ab, hab, hafter⟩

theorem exists_appendJoined_iff (ha : a.violation? = none) (hb : b.violation? = none)
    (hc : c.violation? = none) (hunits : b.units ≠ []) (hunits' : c.units ≠ []) :
    (∃ after, a.appendJoined b c = .done () after) ↔
      b.schema = c.schema ∧ (a.units = [] ∨ a.schema = b.schema) := by
  simp only [appendJoined, Outcome.andThen_eq_done_iff]
  refine ⟨?_, ?_⟩
  · rintro ⟨after, _, bc, hbc, hafter⟩
    have hjoined := joined_of_append hb hc hbc
    have hagrees := (exists_append_iff ha hjoined.sound (hjoined.units_ne_nil hunits')).1
      ⟨after, hafter⟩
    have hschema := ((exists_append_iff hb hc hunits').1 ⟨bc, hbc⟩).resolve_left hunits
    rw [hjoined.schema, ← hschema] at hagrees
    exact ⟨hschema, hagrees⟩
  · rintro ⟨hschema, hagrees⟩
    obtain ⟨bc, hbc⟩ := (exists_append_iff hb hc hunits').2 (Or.inr hschema)
    have hjoined := joined_of_append hb hc hbc
    rw [hschema, ← hjoined.schema] at hagrees
    obtain ⟨after, hafter⟩ :=
      (exists_append_iff ha hjoined.sound (hjoined.units_ne_nil hunits')).2 hagrees
    exact ⟨after, (), bc, hbc, hafter⟩

/-- Both ways lead to the same tables. -/
theorem eq_of_appendEach_of_appendJoined (ha : a.violation? = none) (hb : b.violation? = none)
    (hc : c.violation? = none) (hunits : b.units ≠ []) {after after' : Automaton}
    (h : a.appendEach b c = .done () after) (h' : a.appendJoined b c = .done () after') :
    after = after' := by
  obtain ⟨_, ab, hab, hafter⟩ := Outcome.andThen_eq_done_iff.1 h
  obtain ⟨_, bc, hbc, hafter'⟩ := Outcome.andThen_eq_done_iff.1 h'
  have hfirst := joined_of_append ha hb hab
  have hlast := joined_of_append hfirst.sound hc hafter
  have hfirst' := joined_of_append hb hc hbc
  have hlast' := joined_of_append ha hfirst'.sound hafter'
  refine eq_of_machines_eq hlast.sound hlast'.sound ?_ ?_ ?_
  · rw [hlast.machines, hfirst.machines, hlast'.machines, hfirst'.machines, List.append_assoc]
  · rw [hlast.schema, hlast'.schema, hfirst'.schema]
  · intro side
    have hbefore := hfirst.units_ne_nil hunits
    rw [hlast.symbols, hlast'.symbols, hfirst'.symbols, ownSymbols_eq hbefore,
      ownSymbols_eq hunits, hfirst.symbols, inheritTable_assoc]

/-- Appending `b` and then `c` comes to the same as appending `c` to `b` and that to `a`, where `b`
and `c` have units. Both are carried out if the schemas agree, of which that of `a` counts only if
it has units, and then lead to the same tables. Otherwise both are refused, and neither breaks. -/
theorem append_assoc (ha : a.violation? = none) (hb : b.violation? = none)
    (hc : c.violation? = none) (hunits : b.units ≠ []) (hunits' : c.units ≠ []) :
    ((∃ after, a.appendEach b c = .done () after) ↔
      b.schema = c.schema ∧ (a.units = [] ∨ a.schema = b.schema)) ∧
    (∀ after, a.appendEach b c = .done () after ↔ a.appendJoined b c = .done () after) ∧
    (a.appendEach b c).Sound ∧ (a.appendJoined b c).Sound := by
  have heach := exists_appendEach_iff ha hb hc hunits hunits'
  have hjoined := exists_appendJoined_iff ha hb hc hunits hunits'
  refine ⟨heach, ?_, ?_, ?_⟩
  · intro after
    refine ⟨?_, ?_⟩
    · intro h
      obtain ⟨after', h'⟩ := hjoined.2 (heach.1 ⟨after, h⟩)
      rw [eq_of_appendEach_of_appendJoined ha hb hc hunits h h', h']
    · intro h'
      obtain ⟨after', h⟩ := heach.2 (hjoined.1 ⟨after, h'⟩)
      rw [← eq_of_appendEach_of_appendJoined ha hb hc hunits h h', h]
  · refine (sound_append ha hb).andThen ?_
    intro _ ab hab
    exact sound_append (joined_of_append ha hb hab).sound hc
  · refine (sound_append hb hc).andThen ?_
    intro _ bc hbc
    exact sound_append ha (joined_of_append hb hc hbc).sound

/-- A unit of its own, with names for what it reads and a column without names for what it
writes. -/
def namedUnit : Automaton := ofMachines .acceptor [⟨"named", [1], []⟩] ⟨[["x"], ["y"]]⟩ ⟨[[]]⟩

/-- The first automaton has no names for what it reads, and the second none for what it writes. -/
theorem append_assoc_oneUnit : oneUnit.violation? = none ∧ namedUnit.violation? = none ∧
    fourUnits.violation? = none ∧ ∃ after, oneUnit.appendEach namedUnit fourUnits = .done () after ∧
      oneUnit.appendJoined namedUnit fourUnits = .done () after := by
  obtain ⟨hiff, hsame, -⟩ := append_assoc (by decide : oneUnit.violation? = none)
    (by decide : namedUnit.violation? = none) (by decide : fourUnits.violation? = none)
    (List.cons_ne_nil _ _) (List.cons_ne_nil _ _)
  obtain ⟨after, hafter⟩ := hiff.2 ⟨rfl, Or.inr rfl⟩
  exact ⟨by decide, by decide, by decide, after, hafter, (hsame after).1 hafter⟩

end Automaton

end WeightedAutomata
