-- Work that is done elsewhere cannot be seen from a unit. Edits of other units and appended units
-- move its rows along in the tables, but leave the machine that it reads as, and all that is read
-- of a unit is told by its machine and the schema. What all units show together is, after two
-- automata are put behind each other, what both of them show.
import WeightedAutomata.Proofs.Analysis
import WeightedAutomata.Proofs.Associativity
import WeightedAutomata.Proofs.CompressedRows
import WeightedAutomata.Proofs.Refusals

namespace WeightedAutomata

namespace Automaton

/-! ## Work on an automaton -/

/-- A request to edit an automaton, or to append all units or some units of another one. -/
inductive Work where
  | edit (edit : Edit)
  | append (source : Automaton)
  | appendRange (source : Automaton) (first count : Nat)

/-- The tables that stand after a request, refused or not. -/
def Work.apply (a : Automaton) : Work → Except Fault Automaton
  | .edit e => e.apply a
  | .append source => (a.append source).tables
  | .appendRange source first count => (a.appendRange source first count).tables

/-- The edit does not ask for unit `v`. -/
def Edit.Elsewhere (v : Nat) : Edit → Prop
  | .addUnit _ => True
  | .addStates unit _ _ => unit ≠ v
  | .addTransition unit _ => unit ≠ v
  | .setFinal unit _ _ => unit ≠ v

/-- Neither does an append, whatever its source. -/
def Work.Elsewhere (v : Nat) : Work → Prop
  | .edit e => e.Elsewhere v
  | .append _ => True
  | .appendRange _ _ _ => True

instance Edit.decidableElsewhere (v : Nat) : ∀ e : Edit, Decidable (e.Elsewhere v)
  | .addUnit _ => inferInstanceAs (Decidable True)
  | .addStates unit _ _ => inferInstanceAs (Decidable (unit ≠ v))
  | .addTransition unit _ => inferInstanceAs (Decidable (unit ≠ v))
  | .setFinal unit _ _ => inferInstanceAs (Decidable (unit ≠ v))

instance Work.decidableElsewhere (v : Nat) : ∀ work : Work, Decidable (work.Elsewhere v)
  | .edit e => inferInstanceAs (Decidable (e.Elsewhere v))
  | .append _ => inferInstanceAs (Decidable True)
  | .appendRange _ _ _ => inferInstanceAs (Decidable True)

/-! ## What work elsewhere keeps -/

/-- Unit `v` is the same machine in both automata, under the same schema. The tables are sound
afterwards. -/
structure KeepsUnit (a after : Automaton) (v : Nat) : Prop where
  machine : after.machines[v]? = a.machines[v]?
  schema : after.schema = a.schema
  sound : after.violation? = none

variable {a b after source : Automaton} {u v first count : Nat} {m : Machine}

theorem KeepsUnit.trans {next : Automaton} (h : a.KeepsUnit after v)
    (h' : after.KeepsUnit next v) : a.KeepsUnit next v where
  machine := h'.machine.trans h.machine
  schema := h'.schema.trans h.schema
  sound := h'.sound

/-- An edit elsewhere changes no machine that stands at `v` in a list. -/
theorem Edit.Elsewhere.getElem?_change {edit : Edit} (h : edit.Elsewhere v) (schema : Schema)
    {ms : List Machine} (hv : v < ms.length) : (edit.change schema ms)[v]? = ms[v]? := by
  cases edit with
  | addUnit name => exact List.getElem?_append_left hv
  | addStates unit count final => exact List.getElem?_modify_ne _ _ h
  | addTransition unit t => exact List.getElem?_modify_ne _ _ h
  | setFinal unit state final => exact List.getElem?_modify_ne _ _ h

theorem Edit.Elsewhere.keepsUnit {edit : Edit} (h : edit.Elsewhere v) (hsound : a.violation? = none)
    (hv : v < a.units.length) (happly : edit.apply a = .ok after) : a.KeepsUnit after v := by
  obtain ⟨next, hnext, hkept⟩ := edit.exists_apply hsound
  rw [happly, Except.ok.injEq] at hnext
  subst hnext
  rw [edit.apply_eq hsound, Except.ok.injEq] at happly
  subst happly
  refine ⟨?_, rfl, hkept⟩
  rw [machines_ofMachines]
  exact h.getElem?_change a.schema (by rwa [length_machines])

/-- Nothing is appended from tables that are not sound. -/
theorem sound_source_of_appendRange (htarget : a.violation? = none)
    (h : (a.appendRange source first count).tables = .ok after) : source.violation? = none := by
  rw [← check_eq_ok_iff]
  unfold appendRange Outcome.ofExcept at h
  rw [(check_eq_ok_iff a).2 htarget] at h
  cases hcheck : source.check with
  | ok _ => rfl
  | error fault =>
    rw [hcheck] at h
    cases h

theorem keepsUnit_appendRange (hsound : a.violation? = none) (hv : v < a.units.length)
    (h : (a.appendRange source first count).tables = .ok after) : a.KeepsUnit after v := by
  have hsource := sound_source_of_appendRange hsound h
  have hunits : a.units ≠ [] := List.ne_nil_of_length_pos (Nat.zero_lt_of_lt hv)
  rcases allOrNothing_appendRange hsound hsource first count with ⟨_, next, ho, -⟩ | ⟨error, ho⟩
  · rw [ho, Outcome.tables, Except.ok.injEq] at h
    subst h
    have happended := appended_of_appendRange hsound hsource ho
    obtain ⟨-, hschema⟩ := (exists_appendRange_iff hsound hsource first count).1 ⟨next, ho⟩
    refine ⟨?_, ?_, happended.sound⟩
    · rw [happended.machines, List.getElem?_append_left (by rwa [length_machines])]
    · rw [happended.schema, hschema.resolve_left hunits]
  · rw [ho, Outcome.tables, Except.ok.injEq] at h
    subst h
    exact ⟨rfl, rfl, hsound⟩

/-- One request elsewhere keeps the unit. -/
theorem Work.Elsewhere.keepsUnit {work : Work} (h : work.Elsewhere v) (hsound : a.violation? = none)
    (hv : v < a.units.length) (happly : work.apply a = .ok after) : a.KeepsUnit after v := by
  cases work with
  | edit e => exact Edit.Elsewhere.keepsUnit h hsound hv happly
  | append source => exact keepsUnit_appendRange hsound hv happly
  | appendRange source first count => exact keepsUnit_appendRange hsound hv happly

theorem KeepsUnit.lt_length (h : a.KeepsUnit after v) (hv : v < a.units.length) :
    v < after.units.length := by
  obtain ⟨m, hm⟩ := exists_machine hv
  have hm' : after.machines[v]? = some m := h.machine.trans hm
  rw [← length_machines]
  exact (List.getElem?_eq_some_iff.1 hm').1

/-- So do any number of requests. -/
theorem keepsUnit_foldlM (hsound : a.violation? = none) (hv : v < a.units.length)
    {works : List Work} (helsewhere : ∀ work ∈ works, work.Elsewhere v)
    (hrun : works.foldlM Work.apply a = .ok after) : a.KeepsUnit after v := by
  induction works generalizing a with
  | nil =>
    obtain rfl : a = after := Except.ok.inj hrun
    exact ⟨rfl, rfl, hsound⟩
  | cons work works ih =>
    rw [List.forall_mem_cons] at helsewhere
    rw [List.foldlM_cons] at hrun
    cases hnext : work.apply a with
    | error fault =>
      rw [hnext] at hrun
      cases hrun
    | ok next =>
      rw [hnext] at hrun
      have hkeeps := helsewhere.1.keepsUnit hsound hv hnext
      exact hkeeps.trans (ih hkeeps.sound (hkeeps.lt_length hv) helsewhere.2 hrun)

/-! ## What is read of a unit -/

/-- Whatever is read of unit `v`, both automata answer alike. -/
structure AnswersAlike (a after : Automaton) (v : Nat) : Prop where
  analysis : ∀ mask, after.analyze (some v) mask = a.analyze (some v) mask
  finals : ∀ state, after.isFinal v state = a.isFinal v state
  indices : ∀ direction, TransitionIndex.ofUnit after v direction =
    TransitionIndex.ofUnit a v direction
  rows : ∀ direction, CompressedRows.ofUnit after v direction =
    CompressedRows.ofUnit a v direction
  found : v = 0 → ∀ text config, after.find text config = a.find text config

theorem kind_eq (hschema : b.schema = a.schema) (mask : Properties) :
    b.kind mask = a.kind mask := by
  unfold kind
  rw [hschema]

theorem ofUnit_eq (hsound : a.violation? = none) (hu : a.machines[u]? = some m)
    (direction : Direction) : TransitionIndex.ofUnit a u direction =
      .ok (.ofTransitions m.flags.length m.transitions direction) := by
  have hclosed := (fits_of_violation?_eq_none hsound m (List.mem_of_getElem? hu)).closed
  rw [eq_ofMachines hsound]
  exact ofUnit_ofMachines _ _ _ direction hu (hclosed.endAt_lt direction)

theorem rows_ofUnit_eq (hsound : a.violation? = none) (hu : a.machines[u]? = some m)
    (direction : Direction) : CompressedRows.ofUnit a u direction =
      CompressedRows.ofTransitions m.flags.length m.transitions direction := by
  obtain ⟨row, hrow, hcount, -⟩ := exists_row hsound hu
  unfold CompressedRows.ofUnit
  rw [transitionsOf_eq hsound hu]
  simp only [bind, Except.bind, hrow, hcount]

/-- What is found in a sound automaton is told by its first machine. -/
theorem find_eq (ha : a.violation? = none) (hb : b.violation? = none) (hu : a.machines[0]? = some m)
    (hu' : b.machines[0]? = some m) (text : String) (config : Search.Config) :
    b.find text config = a.find text config := by
  have hsubject : b.subject text = a.subject text := by
    unfold subject
    rw [ofUnit_eq ha hu, ofUnit_eq hb hu', flagsOf_eq ha hu, flagsOf_eq hb hu']
  obtain ⟨row, hrow, hcount, -⟩ := exists_row ha hu
  obtain ⟨row', hrow', hcount', -⟩ := exists_row hb hu'
  rw [← List.head?_eq_getElem?] at hrow hrow'
  obtain ⟨rest, hunits⟩ := List.head?_eq_some_iff.1 hrow
  obtain ⟨rest', hunits'⟩ := List.head?_eq_some_iff.1 hrow'
  unfold find
  rw [hunits, hunits', (check_eq_ok_iff a).2 ha, (check_eq_ok_iff b).2 hb, hsubject]
  dsimp only
  rw [hcount, hcount']

/-- The machine of a unit and the schema tell all that is read of it. -/
theorem KeepsUnit.answersAlike (h : a.KeepsUnit after v) (hsound : a.violation? = none)
    (hv : v < a.units.length) : a.AnswersAlike after v := by
  obtain ⟨m, hm⟩ := exists_machine hv
  have hm' : after.machines[v]? = some m := h.machine.trans hm
  refine ⟨?_, ?_, ?_, ?_, ?_⟩
  · intro mask
    rw [analyze_some hsound hm, analyze_some h.sound hm', kind_eq h.schema]
  · intro state
    rw [isFinal_eq hsound hm, isFinal_eq h.sound hm']
  · intro direction
    rw [ofUnit_eq hsound hm, ofUnit_eq h.sound hm']
  · intro direction
    rw [rows_ofUnit_eq hsound hm, rows_ofUnit_eq h.sound hm']
  · rintro rfl text config
    exact find_eq hsound h.sound hm hm' text config

/-! ## What all units show -/

/-- Without a unit an analysis tells what the graphs of all units have in common, and the kind. -/
theorem exists_analyze_none (hsound : a.violation? = none) : ∃ common : Properties,
    (∀ mask, a.analyze none mask = .ok (mask.select (common.union a.kind))) ∧
      ∀ i, common.Has i ↔ Properties.topology.Has i ∧ ∀ m ∈ a.machines, m.topology.Has i := by
  have hrange : ∀ u ∈ List.range a.units.length, u < a.units.length := fun u => List.mem_range.1
  obtain ⟨common, hcommon, hbits⟩ := exists_has_commonTopology hsound hrange
  refine ⟨common, ?_, ?_⟩
  · intro mask
    unfold analyze
    rw [hcommon]
    rfl
  · intro i
    rw [hbits, ← length_machines]
    refine and_congr_right fun _ => ⟨?_, ?_⟩
    · intro h m hm
      obtain ⟨u, hu⟩ := List.getElem?_of_mem hm
      exact h u (List.mem_range.2 (List.getElem?_eq_some_iff.1 hu).1) m hu
    · exact fun h u _ m hu => h m (List.mem_of_getElem? hu)

/-- A bit that all units show once two automata are joined is one that all units of both show. -/
theorem Joined.analyze_none (h : Joined a b after) (ha : a.violation? = none)
    (hb : b.violation? = none) (hschema : b.schema = a.schema) (mask : Properties) :
    ∃ p q, a.analyze none mask = .ok p ∧ b.analyze none mask = .ok q ∧
      after.analyze none mask = .ok (p.inter q) := by
  obtain ⟨own, hown, hownBits⟩ := exists_analyze_none ha
  obtain ⟨other, hother, hotherBits⟩ := exists_analyze_none hb
  obtain ⟨common, hcommon, hcommonBits⟩ := exists_analyze_none h.sound
  refine ⟨_, _, hown mask, hother mask, ?_⟩
  rw [hcommon, Except.ok.injEq, kind_eq hschema, kind_eq (h.schema.trans hschema)]
  apply Properties.ext_has
  intro i
  have hboth : common.Has i ↔ own.Has i ∧ other.Has i := by
    rw [hcommonBits, hownBits, hotherBits, h.machines, List.forall_mem_append]
    exact and_and_left
  simp only [Properties.has_inter, Properties.has_select, Properties.has_union, hboth]
  rw [and_or_right]
  exact and_and_left

/-! ## Work elsewhere -/

/-- Requests that do not ask for a unit, any number of them, carried out or refused, change no
answer about it, and none about what is found if it is the first. Appending the units of another
automaton with the same schema leaves of what all units show together just what both show. -/
theorem work_elsewhere_unseen (hsound : a.violation? = none) :
    (∀ v < a.units.length, ∀ works : List Work, (∀ work ∈ works, work.Elsewhere v) →
      ∀ after, works.foldlM Work.apply a = .ok after → a.AnswersAlike after v) ∧
    ∀ b : Automaton, b.violation? = none → b.schema = a.schema → b.units ≠ [] →
      ∃ after, a.append b = .done () after ∧ ∀ mask, ∃ p q, a.analyze none mask = .ok p ∧
        b.analyze none mask = .ok q ∧ after.analyze none mask = .ok (p.inter q) := by
  refine ⟨?_, ?_⟩
  · intro v hv works helsewhere after hrun
    exact (keepsUnit_foldlM hsound hv helsewhere hrun).answersAlike hsound hv
  · intro b hb hschema hunits
    obtain ⟨after, hafter⟩ := (exists_append_iff hsound hb hunits).2 (Or.inr hschema.symm)
    exact ⟨after, hafter, (joined_of_append hsound hb hafter).analyze_none hsound hb hschema⟩

/-- States for the unit before the second one and for one behind it, a transition there, a new unit,
and units appended, among them copies of these units. -/
def aroundSecond : List Work :=
  [.edit (.addStates 0 2 true), .edit (.setFinal 0 1 false), .edit (.addStates 2 1 false),
    .edit (.addTransition 3 { source := 0, target := 0, input := some .epsilon }),
    .edit (.addUnit "fifth"), .appendRange oneUnit 0 1, .append fourUnits]

theorem work_elsewhere_unseen_fourUnits : fourUnits.violation? = none ∧
    (∀ work ∈ aroundSecond, work.Elsewhere 1) ∧
    (∃ after, aroundSecond.foldlM Work.apply fourUnits = .ok after ∧
      fourUnits.AnswersAlike after 1) ∧
    ∃ after, fourUnits.append oneUnit = .done () after ∧ ∀ mask, ∃ p q,
      fourUnits.analyze none mask = .ok p ∧ oneUnit.analyze none mask = .ok q ∧
        after.analyze none mask = .ok (p.inter q) := by
  obtain ⟨hunseen, hjoined⟩ := work_elsewhere_unseen (by decide : fourUnits.violation? = none)
  refine ⟨by decide, by decide, ⟨_, rfl, ?_⟩, ?_⟩
  · exact hunseen 1 (by decide) aroundSecond (by decide) _ rfl
  · exact hjoined oneUnit (by decide) rfl (List.cons_ne_nil _ _)

end Automaton

end WeightedAutomata
