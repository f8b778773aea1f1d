-- The packed tables behave as a list of independent units. An edit is carried out exactly where
-- the machine of its unit allows it, and then that machine changes and nothing else does.
import Mathlib.Data.List.Basic
import WeightedAutomata.Proofs.Edits

namespace WeightedAutomata

/-! ## Flag bytes -/

/-- The final flag is bit 0, and setting it leaves the other bits. -/
theorem Flags.testBit_withFinal (flags : Flags) (final : Bool) (i : Nat) :
    (flags.withFinal final).toNat.testBit i = if i = 0 then final else flags.toNat.testBit i := by
  unfold Flags.withFinal
  cases final with
  | true =>
    rw [if_pos rfl, UInt8.toNat_or, Nat.testBit_or, UInt8.toNat_one]
    by_cases hi : i = 0
    · simp [hi]
    · have hone : Nat.testBit 1 i = false := by
        rw [Bool.eq_false_iff, ne_eq, Nat.testBit_one_eq_true_iff_self_eq_zero]
        exact hi
      rw [hone, Bool.or_false, if_neg hi]
  | false =>
    have hmask : ∀ i < 8, (254 : Nat).testBit i = !decide (i = 0) := by decide
    rw [if_neg Bool.false_ne_true, UInt8.toNat_and, Nat.testBit_and]
    by_cases hi : i < 8
    · rw [show (0xFE : Flags).toNat = 254 from rfl, hmask i hi]
      by_cases hzero : i = 0
      · simp [hzero]
      · simp [hzero]
    · -- A byte has no bits from the eighth on.
      have hpow : 2 ^ 8 ≤ 2 ^ i := Nat.pow_le_pow_right (by decide) (Nat.le_of_not_lt hi)
      have hnone : flags.toNat.testBit i = false :=
        Nat.testBit_lt_two_pow (Nat.lt_of_lt_of_le flags.toNat_lt hpow)
      rw [hnone, if_neg (by omega), Bool.false_and]

/-! ## Rows of transitions -/

namespace Schema

/-- The weight that a transition is kept with: its own, or where it has none, the one that changes
no path. That is 1 for probabilities, which multiply, and 0 in the two domains that add. Without a
domain there is none to add. -/
def keptWeight (schema : Schema) (t : Transition) : Option Float :=
  match t.weight, schema.semiring with
  | some weight, _ => some weight
  | none, some .probability => some 1.0
  | none, some .log => some 0.0
  | none, some .tropical => some 0.0
  | none, none => none

variable (schema : Schema) (t : Transition)

theorem complete_eq : schema.complete t = { t with weight := schema.keptWeight t } := by
  obtain ⟨source, target, input, output, weight⟩ := t
  unfold complete keptWeight
  cases weight with
  | some weight => cases schema.semiring <;> rfl
  | none =>
    cases schema.semiring with
    | none => rfl
    | some semiring => cases semiring <;> rfl

/-- A completed transition fits where the labels do, unless it has a weight that no domain gives a
sense to. -/
theorem admits_complete_iff : schema.admits (schema.complete t) = true ↔
    t.input.isSome = schema.input ∧ t.output.isSome = schema.output ∧
      (schema.semiring = none → t.weight = none) := by
  obtain ⟨source, target, input, output, weight⟩ := t
  simp only [admits, complete, Bool.and_eq_true, beq_iff_eq, and_assoc]
  cases schema.semiring <;> cases weight <;> simp

end Schema

namespace Automaton

/-! ## Changes of one unit -/

/-- From `a` to `after` unit `u` becomes the machine `m`, and nothing else changes. The tables
are sound afterwards. -/
structure OnlyUnit (a after : Automaton) (u : Nat) (m : Machine) : Prop where
  own : after.machines[u]? = some m
  others : ∀ v, v ≠ u → after.machines[v]? = a.machines[v]?
  schema : after.schema = a.schema
  inputSymbols : after.inputSymbols = a.inputSymbols
  outputSymbols : after.outputSymbols = a.outputSymbols
  sound : after.violation? = none

variable {a : Automaton} {u : Nat} {m : Machine}

theorem onlyUnit_set (hsound : a.violation? = none) (hu : a.machines[u]? = some m) {m' : Machine}
    (hm' : m'.Fits a.schema) : a.OnlyUnit
      (ofMachines a.schema (a.machines.set u m') a.inputSymbols a.outputSymbols) u m' where
  own := by
    rw [machines_ofMachines, List.getElem?_set_self (List.getElem?_eq_some_iff.1 hu).1]
  others := by
    intro v hv
    rw [machines_ofMachines, List.getElem?_set_ne hv.symm]
  schema := rfl
  inputSymbols := rfl
  outputSymbols := rfl
  sound := violation?_set hsound u hm' _ _

/-- A change of one unit determines what stands afterwards. -/
theorem OnlyUnit.eq_ofMachines {after : Automaton} {m' : Machine} (h : a.OnlyUnit after u m')
    (hu : a.machines[u]? = some m) :
    after = ofMachines a.schema (a.machines.set u m') a.inputSymbols a.outputSymbols := by
  have hlt : u < a.machines.length := (List.getElem?_eq_some_iff.1 hu).1
  have hmachines : after.machines = a.machines.set u m' := by
    apply List.ext_getElem?
    intro v
    by_cases hv : v = u
    · rw [hv, h.own, List.getElem?_set_self hlt]
    · rw [h.others v hv, List.getElem?_set_ne (Ne.symm hv)]
  rw [Automaton.eq_ofMachines h.sound, hmachines, h.schema, h.inputSymbols, h.outputSymbols]

theorem onlyUnit_addUnit (hsound : a.violation? = none) (name : String) :
    (a.addUnit name).1 = a.machines.length ∧
      a.OnlyUnit (a.addUnit name).2 a.machines.length ⟨name, [], []⟩ := by
  have hkept := violation?_addUnit hsound name
  rw [addUnit_eq hsound] at hkept ⊢
  refine ⟨rfl, ?_, ?_, rfl, rfl, rfl, hkept⟩
  · rw [machines_ofMachines, List.getElem?_concat_length]
  · intro v hv
    rw [machines_ofMachines, List.getElem?_append]
    split
    · rfl
    · rw [List.getElem?_eq_none (by simp; omega), List.getElem?_eq_none (by omega)]

end Automaton

/-! ## Edits of one unit -/

/-- What an edit of unit `u` comes to. It is carried out exactly where there is such a unit and
its machine allows the edit. Then it tells `answer` of the machine, and `change` of the machine
takes its place. Otherwise it is refused, and everything stays. -/
structure Outcome.EditsUnit {α : Type} (o : Outcome α) (a : Automaton) (u : Nat)
    (allowed : Machine → Prop) (answer : Machine → α) (change : Machine → Machine) : Prop where
  done_iff : (∃ value after, o = .done value after) ↔ ∃ m, a.machines[u]? = some m ∧ allowed m
  done : ∀ m value after, a.machines[u]? = some m → o = .done value after →
    value = answer m ∧ a.OnlyUnit after u (change m)
  refused : (∃ value after, o = .done value after) ∨ ∃ error, o = .refused error a

namespace Outcome.EditsUnit

variable {α : Type} {o : Outcome α} {a after : Automaton} {u : Nat} {m : Machine} {error : Error}
  {allowed : Machine → Prop} {answer : Machine → α} {change : Machine → Machine}

theorem of_done (hu : a.machines[u]? = some m) (hallowed : allowed m)
    (ho : o = .done (answer m) after) (honly : a.OnlyUnit after u (change m)) :
    o.EditsUnit a u allowed answer change where
  done_iff := ⟨fun _ => ⟨m, hu, hallowed⟩, fun _ => ⟨answer m, after, ho⟩⟩
  done := by
    intro m' value after' hu' hdone
    rw [hu, Option.some.injEq] at hu'
    rw [ho, Outcome.done.injEq] at hdone
    obtain ⟨rfl, rfl⟩ := hdone
    exact hu' ▸ ⟨rfl, honly⟩
  refused := Or.inl ⟨answer m, after, ho⟩

theorem of_refused (hnot : ∀ m, a.machines[u]? = some m → ¬ allowed m)
    (ho : o = .refused error a) : o.EditsUnit a u allowed answer change where
  done_iff := by
    refine ⟨?_, ?_⟩
    · rintro ⟨value, after, hdone⟩
      rw [ho] at hdone
      cases hdone
    · rintro ⟨m, hu, hallowed⟩
      exact absurd hallowed (hnot m hu)
  done := by
    intro m value after hu hdone
    rw [ho] at hdone
    cases hdone
  refused := Or.inr ⟨error, ho⟩

/-- Where there is no such unit, nothing is allowed. -/
theorem of_none (hu : a.machines[u]? = none) (ho : o = .refused error a) :
    o.EditsUnit a u allowed answer change := by
  apply of_refused _ ho
  intro m hm
  rw [hu] at hm
  cases hm

/-- Where the machine of the unit does not allow it, nothing does. -/
theorem of_not (hu : a.machines[u]? = some m) (hnot : ¬ allowed m) (ho : o = .refused error a) :
    o.EditsUnit a u allowed answer change := by
  apply of_refused _ ho
  intro m' hm'
  rw [hu, Option.some.injEq] at hm'
  exact hm' ▸ hnot

/-- What stands after an edit, refused or not, is told by the unit alone. -/
theorem tables_eq [DecidablePred allowed] (h : o.EditsUnit a u allowed answer change)
    (hsound : a.violation? = none) : o.tables = .ok (.ofMachines a.schema
      (a.machines.modify u fun m => if allowed m then change m else m)
      a.inputSymbols a.outputSymbols) := by
  by_cases hallowed : ∃ m, a.machines[u]? = some m ∧ allowed m
  · obtain ⟨value, after, ho⟩ := h.done_iff.2 hallowed
    obtain ⟨m, hu, hm⟩ := hallowed
    have hafter := (h.done m value after hu ho).2.eq_ofMachines hu
    rw [ho, List.modify_eq_set_getElem?, hu, Outcome.tables, hafter]
    simp [hm]
  · obtain ⟨error, ho⟩ := h.refused.resolve_left (mt h.done_iff.1 hallowed)
    have hsame : (a.machines.modify u fun m => if allowed m then change m else m) = a.machines := by
      rw [List.modify_eq_set_getElem?]
      rcases hu : a.machines[u]? with _ | m
      · rfl
      · have hm : ¬ allowed m := fun hm => hallowed ⟨m, hu, hm⟩
        obtain ⟨hlt, rfl⟩ := List.getElem?_eq_some_iff.1 hu
        simp [hm]
    rw [ho, hsame, ← Automaton.eq_ofMachines hsound]
    rfl

end Outcome.EditsUnit

namespace Automaton

variable {a : Automaton}

theorem editsUnit_addStates (hsound : a.violation? = none) (u count : Nat) (final : Bool) :
    (a.addStates u count final).EditsUnit a u (fun _ => True) (fun m => told m.flags.length)
      fun m => { m with flags := m.flags ++ List.replicate count (if final then 1 else 0) } := by
  rcases hu : a.machines[u]? with _ | m
  · exact .of_none hu (addStates_badUnit hu count final)
  · have hm := fits_of_violation?_eq_none hsound m (List.mem_of_getElem? hu)
    exact .of_done hu trivial (addStates_eq hsound hu count final)
      (onlyUnit_set hsound hu (hm.moreStates _))

theorem editsUnit_setFinal (hsound : a.violation? = none) (u state : Nat) (final : Bool) :
    (a.setFinal u state final).EditsUnit a u (fun m => state < m.flags.length) (fun _ => ())
      fun m => { m with flags := m.flags.modify state (·.withFinal final) } := by
  rcases hu : a.machines[u]? with _ | m
  · exact .of_none hu (setFinal_badUnit hu state final)
  · have hm := fits_of_violation?_eq_none hsound m (List.mem_of_getElem? hu)
    rw [setFinal_eq hsound hu]
    split
    · rename_i hstate
      exact .of_done hu hstate rfl (onlyUnit_set hsound hu (hm.modifyFlags _ _))
    · rename_i hstate
      exact .of_not hu hstate rfl

theorem editsUnit_addTransition (hsound : a.violation? = none) (u : Nat) (t : Transition) :
    (a.addTransition u t).EditsUnit a u
      (fun m => t.source < m.flags.length ∧ t.target < m.flags.length ∧
        a.schema.admits (a.schema.complete t) = true)
      (fun m => told m.transitions.length)
      fun m => { m with transitions := m.transitions ++ [a.schema.complete t] } := by
  rcases hu : a.machines[u]? with _ | m
  · exact .of_none hu (addTransition_badUnit hu t)
  · have hm := fits_of_violation?_eq_none hsound m (List.mem_of_getElem? hu)
    rw [addTransition_eq hsound hu]
    split
    · rename_i hsource
      exact .of_not hu (fun h => absurd h.1 (Nat.not_lt.2 hsource)) rfl
    · split
      · rename_i htarget
        exact .of_not hu (fun h => absurd h.2.1 (Nat.not_lt.2 htarget)) rfl
      · split
        · rename_i hsource htarget hadmits
          rw [Nat.not_le] at hsource htarget
          obtain ⟨hs, ht⟩ := a.schema.ends_complete t
          exact .of_done hu ⟨hsource, htarget, hadmits⟩ rfl (onlyUnit_set hsound hu
            (hm.moreTransitions (hs ▸ hsource) (ht ▸ htarget) hadmits))
        · rename_i hadmits
          exact .of_not hu (fun h => hadmits h.2.2) rfl

/-! ## All edits -/

/-- The edits of an automaton as edits of a list of independent units. -/
structure EditsByUnit (a : Automaton) : Prop where
  /-- A new unit is empty, and takes the place behind all others. -/
  addUnit : ∀ name, (a.addUnit name).1 = a.machines.length ∧
    a.OnlyUnit (a.addUnit name).2 a.machines.length ⟨name, [], []⟩
  /-- Every unit that there is can get states. The number told is that of the first of them. -/
  addStates : ∀ u count final,
    (a.addStates u count final).EditsUnit a u (fun _ => True) (fun m => told m.flags.length)
      fun m => { m with flags := m.flags ++ List.replicate count (if final then 1 else 0) }
  /-- A unit can get a transition between its states that has the labels of the schema, and no
  weight unless weights are carried. A missing weight is completed. The number told is the place of
  the transition. -/
  addTransition : ∀ u t,
    (a.addTransition u t).EditsUnit a u
      (fun m => t.source < m.flags.length ∧ t.target < m.flags.length ∧
        t.input.isSome = a.schema.input ∧ t.output.isSome = a.schema.output ∧
          (a.schema.semiring = none → t.weight = none))
      (fun m => told m.transitions.length)
      fun m => { m with
        transitions := m.transitions ++ [{ t with weight := a.schema.keptWeight t }] }
  /-- Of a number the lower 32 bits are told. Below 2³² that is the whole number. -/
  toldBits : (∀ number, told number = number % 4294967296) ∧
    ∀ number < 4294967296, told number = number
  /-- The flag byte of a state that there is can be changed. -/
  setFinal : ∀ u state final,
    (a.setFinal u state final).EditsUnit a u (fun m => state < m.flags.length) (fun _ => ())
      fun m => { m with flags := m.flags.modify state (·.withFinal final) }
  /-- That sets bit 0, and leaves the other bits of the byte. -/
  finalBit : ∀ (flags : Flags) (final : Bool) (i : Nat),
    (flags.withFinal final).toNat.testBit i = if i = 0 then final else flags.toNat.testBit i

/-- The edits of sound tables are edits of independent units. Each is carried out exactly where
its unit allows it, and reaches nothing but that unit. -/
theorem edits_by_unit (hsound : a.violation? = none) : a.EditsByUnit where
  addUnit := onlyUnit_addUnit hsound
  addStates := editsUnit_addStates hsound
  addTransition := by
    intro u t
    rw [← Schema.complete_eq]
    simpa only [Schema.admits_complete_iff] using editsUnit_addTransition hsound u t
  toldBits := ⟨fun _ => rfl, fun _ => Nat.mod_eq_of_lt⟩
  setFinal := editsUnit_setFinal hsound
  finalBit := Flags.testBit_withFinal

/-- A unit with probabilities between two units without states. -/
def betweenEmpty : Automaton :=
  ofMachines { input := true, semiring := some .probability } [⟨"before", [], []⟩,
    ⟨"between", [0, 1],
      [{ source := 0, target := 1, input := some .anyChar, weight := some 0.25 }]⟩,
    ⟨"behind", [], []⟩]

/-- The way back is added without a weight, and is taken for certain. -/
theorem edits_by_unit_betweenEmpty : betweenEmpty.violation? = none ∧ betweenEmpty.EditsByUnit ∧
    ∃ after, betweenEmpty.addTransition 1 { source := 1, target := 0, input := some .epsilon } =
        .done 1 after ∧
      after.machines[1]? = some ⟨"between", [0, 1],
        [{ source := 0, target := 1, input := some .anyChar, weight := some 0.25 },
          { source := 1, target := 0, input := some .epsilon, weight := some 1.0 }]⟩ := by
  have hsound : betweenEmpty.violation? = none := by decide
  have hedits : betweenEmpty.EditsByUnit := edits_by_unit hsound
  have hback := hedits.addTransition 1 { source := 1, target := 0, input := some .epsilon }
  obtain ⟨number, after, hafter⟩ := hback.done_iff.2 ⟨_, rfl, by decide⟩
  obtain ⟨hnumber, honly⟩ := hback.done _ number after rfl hafter
  have hone : number = 1 := hnumber.trans (hedits.toldBits.2 1 (by decide))
  rw [hone] at hafter
  exact ⟨hsound, hedits, after, hafter, honly.own⟩

/-! ## Any number of edits -/

/-- An edit of one unit. -/
inductive Edit where
  | addUnit (name : String)
  | addStates (unit count : Nat) (final : Bool)
  | addTransition (unit : Nat) (t : Transition)
  | setFinal (unit state : Nat) (final : Bool)

/-- The tables that stand after an edit, refused or not. -/
def Edit.apply (a : Automaton) : Edit → Except Fault Automaton
  | .addUnit name => .ok (a.addUnit name).2
  | .addStates unit count final => (a.addStates unit count final).tables
  | .addTransition unit t => (a.addTransition unit t).tables
  | .setFinal unit state final => (a.setFinal unit state final).tables

/-- The same edit of a list of independent units, which does nothing where it is not allowed. -/
def Edit.change (schema : Schema) (ms : List Machine) : Edit → List Machine
  | .addUnit name => ms ++ [⟨name, [], []⟩]
  | .addStates unit count final => ms.modify unit fun m =>
    { m with flags := m.flags ++ List.replicate count (if final then 1 else 0) }
  | .addTransition unit t => ms.modify unit fun m =>
    if t.source < m.flags.length ∧ t.target < m.flags.length ∧
        schema.admits (schema.complete t) = true then
      { m with transitions := m.transitions ++ [schema.complete t] }
    else m
  | .setFinal unit state final => ms.modify unit fun m =>
    if state < m.flags.length then { m with flags := m.flags.modify state (·.withFinal final) }
    else m

theorem Edit.exists_apply (hsound : a.violation? = none) (edit : Edit) :
    ∃ after, edit.apply a = .ok after ∧ after.violation? = none := by
  cases edit with
  | addUnit name => exact ⟨_, rfl, violation?_addUnit hsound name⟩
  | addStates unit count final => exact (sound_addStates hsound unit count final).exists_tables
  | addTransition unit t => exact (sound_addTransition hsound unit t).exists_tables
  | setFinal unit state final => exact (sound_setFinal hsound unit state final).exists_tables

/-- One edit of sound tables is the edit of their units. -/
theorem Edit.apply_eq (hsound : a.violation? = none) (edit : Edit) :
    edit.apply a = .ok (ofMachines a.schema (edit.change a.schema a.machines)
      a.inputSymbols a.outputSymbols) := by
  cases edit with
  | addUnit name => exact congrArg (fun told => Except.ok told.2) (addUnit_eq hsound name)
  | addStates unit count final =>
    exact (editsUnit_addStates hsound unit count final).tables_eq hsound
  | addTransition unit t => exact (editsUnit_addTransition hsound unit t).tables_eq hsound
  | setFinal unit state final => exact (editsUnit_setFinal hsound unit state final).tables_eq hsound

/-- Edits of sound tables, any number of them and in any order, are edits of their units. -/
theorem foldlM_apply_eq (hsound : a.violation? = none) (edits : List Edit) :
    edits.foldlM Edit.apply a = .ok (ofMachines a.schema
      (edits.foldl (Edit.change a.schema) a.machines) a.inputSymbols a.outputSymbols) := by
  induction edits generalizing a with
  | nil => exact congrArg Except.ok (eq_ofMachines hsound)
  | cons edit edits ih =>
    obtain ⟨after, hafter, hkept⟩ := edit.exists_apply hsound
    have heq : after = ofMachines a.schema (edit.change a.schema a.machines) a.inputSymbols
        a.outputSymbols := by
      rw [edit.apply_eq hsound, Except.ok.injEq] at hafter
      exact hafter.symm
    rw [List.foldlM_cons, hafter, List.foldl_cons]
    have hrest := ih hkept
    rw [heq, machines_ofMachines] at hrest
    rw [heq]
    exact hrest

end Automaton

end WeightedAutomata
