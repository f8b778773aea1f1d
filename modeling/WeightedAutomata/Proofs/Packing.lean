-- Sound tables are packings. `violation?` finds nothing exactly when the tables are the
-- packing of machines whose transitions stay among their own states and fit the schema,
-- and the units of a packing read back as the machines that were packed.
import WeightedAutomata.Automaton.Integrity

namespace WeightedAutomata

/-! ## Machines that fit -/

/-- Every transition runs between two states of the machine. -/
def Machine.Closed (m : Machine) : Prop :=
  ∀ t ∈ m.transitions, t.source < m.flags.length ∧ t.target < m.flags.length

/-- A closed machine whose transitions carry what the schema names. -/
structure Machine.Fits (schema : Schema) (m : Machine) : Prop where
  closed : m.Closed
  admitted : ∀ t ∈ m.transitions, schema.admits t = true

/-! ## Answers for all items of a list -/

theorem mapM_eq_ok_iff {ε α β : Type} {f : α → Except ε β} {xs : List α} {ys : List β} :
    xs.mapM f = .ok ys ↔ xs.map f = ys.map .ok := by
  induction xs generalizing ys with
  | nil => cases ys <;> simp [pure, Except.pure]
  | cons x xs ih =>
    rw [List.mapM_cons, List.map_cons]
    cases ys with
    | nil =>
      cases f x with
      | error e => simp [bind, Except.bind]
      | ok y => cases xs.mapM f <;> simp [bind, Except.bind, pure, Except.pure]
    | cons y' ys =>
      rw [List.map_cons, List.cons.injEq, ← ih]
      cases f x with
      | error e => simp [bind, Except.bind]
      | ok y => cases xs.mapM f <;> simp [bind, Except.bind, pure, Except.pure]

theorem exists_mapM_eq_ok {ε α β : Type} {f : α → Except ε β} {xs : List α}
    (h : ∀ x ∈ xs, ∃ y, f x = .ok y) : ∃ ys, xs.mapM f = .ok ys := by
  simp only [mapM_eq_ok_iff]
  induction xs with
  | nil => exact ⟨[], rfl⟩
  | cons x xs ih =>
    rw [List.forall_mem_cons] at h
    obtain ⟨⟨y, hy⟩, hrest⟩ := h
    obtain ⟨ys, hys⟩ := ih hrest
    exact ⟨y :: ys, by rw [List.map_cons, List.map_cons, hy, hys]⟩

/-! ## Rows of a table -/

theorem rows?_append {α : Type} (xs ys zs : List α) :
    rows? (xs ++ (ys ++ zs)) xs.length ys.length = some ys := by
  unfold rows?
  rw [if_pos (by simp only [List.length_append]; omega), List.drop_left, List.take_left]

theorem rows?_eq_take_drop {α : Type} {table : List α} {first count : Nat}
    (h : first + count ≤ table.length) :
    rows? table first count = some ((table.drop first).take count) := by
  unfold rows?
  rw [if_pos h]

theorem flatMap_take_cons_drop {α β : Type} (f : α → List β) {l : List α} {i : Nat} {x : α}
    (h : l[i]? = some x) :
    l.flatMap f = (l.take i).flatMap f ++ (f x ++ (l.drop (i + 1)).flatMap f) := by
  obtain ⟨hi, rfl⟩ := List.getElem?_eq_some_iff.1 h
  conv => lhs; rw [← List.take_append_drop i l, List.drop_eq_getElem_cons hi]
  rw [List.flatMap_append, List.flatMap_cons]

namespace Automaton

/-! ## Reading a packing back -/

theorem getElem?_rowsOf (states transitions : Nat) (ms : List Machine) (u : Nat) :
    (rowsOf states transitions ms)[u]? = ms[u]?.map fun m =>
      ⟨m.name, states + ((ms.take u).flatMap (·.flags)).length, m.flags.length,
        transitions + ((ms.take u).flatMap (·.transitions)).length, m.transitions.length⟩ := by
  induction ms generalizing states transitions u with
  | nil => simp [rowsOf]
  | cons m ms ih =>
    cases u with
    | zero => simp [rowsOf]
    | succ u =>
      simp only [rowsOf, List.getElem?_cons_succ, ih, List.take_succ_cons, List.flatMap_cons,
        List.length_append, Nat.add_assoc]

/-- Rows of machines that stand in the tables from the given places on lead to them. -/
theorem map_machineAt_rowsOf (a : Automaton) (states transitions : Nat) (ms : List Machine)
    (hs : a.states.drop states = ms.flatMap (·.flags))
    (ht : a.transitions.drop transitions = ms.flatMap (·.transitions)) :
    (rowsOf states transitions ms).map a.machineAt = ms := by
  induction ms generalizing states transitions with
  | nil => rfl
  | cons m ms ih =>
    rw [List.flatMap_cons] at hs ht
    have hm : a.machineAt ⟨m.name, states, m.flags.length, transitions, m.transitions.length⟩ =
        m := by
      simp only [machineAt, hs, ht, List.take_left]
    have hs' : a.states.drop (states + m.flags.length) = ms.flatMap (·.flags) := by
      rw [← List.drop_drop, hs, List.drop_left]
    have ht' : a.transitions.drop (transitions + m.transitions.length) =
        ms.flatMap (·.transitions) := by
      rw [← List.drop_drop, ht, List.drop_left]
    rw [rowsOf, List.map_cons, hm, ih _ _ hs' ht']

section packing

variable (schema : Schema) (ms : List Machine) (inputs outputs : SymbolTable)

@[simp] theorem machines_ofMachines : (ofMachines schema ms inputs outputs).machines = ms :=
  map_machineAt_rowsOf _ 0 0 ms rfl rfl

theorem units_ofMachines (u : Nat) : (ofMachines schema ms inputs outputs).units[u]? =
    ms[u]?.map fun m =>
      ⟨m.name, ((ms.take u).flatMap (·.flags)).length, m.flags.length,
        ((ms.take u).flatMap (·.transitions)).length, m.transitions.length⟩ := by
  simp only [ofMachines, getElem?_rowsOf, Nat.zero_add]

variable {ms} {u : Nat} {m : Machine}

theorem flagsOf_ofMachines (h : ms[u]? = some m) :
    (ofMachines schema ms inputs outputs).flagsOf u = .ok m.flags := by
  unfold flagsOf
  rw [units_ofMachines, h]
  simp only [Option.map_some, Option.bind_eq_bind, Option.bind_some, ofMachines,
    flatMap_take_cons_drop (·.flags) h, rows?_append]

theorem transitionsOf_ofMachines (h : ms[u]? = some m) :
    (ofMachines schema ms inputs outputs).transitionsOf u = .ok m.transitions := by
  unfold transitionsOf
  rw [units_ofMachines, h]
  simp only [Option.map_some, Option.bind_eq_bind, Option.bind_some, ofMachines,
    flatMap_take_cons_drop (·.transitions) h, rows?_append]

end packing

/-! ## What the scan for violations finds -/

theorem strayEnd?_eq_none_iff (unit count row : Nat) (ts : List Transition) :
    strayEnd? unit count row ts = none ↔ ∀ t ∈ ts, t.source < count ∧ t.target < count := by
  induction ts generalizing row with
  | nil => simp [strayEnd?]
  | cons t ts ih =>
    unfold strayEnd?
    rw [List.forall_mem_cons, ← ih (row + 1)]
    split
    · simp; omega
    · split
      · simp; omega
      · rename_i hs ht
        simp only [Nat.lt_of_not_le hs, Nat.lt_of_not_le ht, true_and]

/-- A scan that finds nothing ended with the lengths of the tables as totals. -/
theorem le_of_violationFrom?_eq_none (a : Automaton) (unit states transitions : Nat)
    (rows : List UnitRow) (h : a.violationFrom? unit states transitions rows = none) :
    states ≤ a.states.length ∧ transitions ≤ a.transitions.length := by
  induction rows generalizing unit states transitions with
  | nil =>
    unfold violationFrom? at h
    split at h
    · cases h
    · split at h
      · cases h
      · omega
  | cons row rows ih =>
    unfold violationFrom? at h
    split at h
    · cases h
    · split at h
      · cases h
      · dsimp only at h
        split at h
        · cases h
        · have := ih _ _ _ h
          omega

theorem violationFrom?_nil_eq_none_iff (a : Automaton) (unit states transitions : Nat) :
    a.violationFrom? unit states transitions [] = none ↔
      states = a.states.length ∧ transitions = a.transitions.length ∧
        ∀ t ∈ a.transitions, a.schema.admits t = true := by
  unfold violationFrom?
  split
  · simp; omega
  · split
    · simp; omega
    · rename_i hs ht
      simp [Decidable.not_not.1 hs, Decidable.not_not.1 ht]

/-- The end points of a unit are looked at only where its rows are in the table. Otherwise a
total is wrong, and the rest of the scan finds that. -/
theorem violationFrom?_cons_eq_none_iff (a : Automaton) (unit states transitions : Nat)
    (row : UnitRow) (rows : List UnitRow) :
    a.violationFrom? unit states transitions (row :: rows) = none ↔
      row.firstState = states ∧ row.firstTransition = transitions ∧
        (∀ t ∈ (a.machineAt row).transitions,
          t.source < row.stateCount ∧ t.target < row.stateCount) ∧
        a.violationFrom? (unit + 1) (states + row.stateCount)
          (transitions + row.transitionCount) rows = none := by
  rw [violationFrom?]
  split
  · simp [*]
  · split
    · simp [*]
    · rename_i hs ht
      have hs := Decidable.not_not.1 hs
      have ht := Decidable.not_not.1 ht
      dsimp only
      by_cases hrest : a.violationFrom? (unit + 1) (states + row.stateCount)
          (transitions + row.transitionCount) rows = none
      · have hle := (le_of_violationFrom?_eq_none a _ _ _ _ hrest).2
        have hown : rows? a.transitions row.firstTransition row.transitionCount =
            some (a.machineAt row).transitions := rows?_eq_take_drop (by omega)
        rw [hown, Option.getD_some, ← strayEnd?_eq_none_iff unit row.stateCount 0]
        split
        · simp [*]
        · simp [*]
      · simp only [hrest, and_false, iff_false]
        split
        · simp
        · exact hrest

/-- From some place of the tables on, they are a packing of closed machines with the rows. -/
def Packed (a : Automaton) (states transitions : Nat) (rows : List UnitRow) : Prop :=
  ∃ ms : List Machine, rows = rowsOf states transitions ms ∧
    a.states.drop states = ms.flatMap (·.flags) ∧
    a.transitions.drop transitions = ms.flatMap (·.transitions) ∧ ∀ m ∈ ms, m.Closed

theorem packed_nil_iff (a : Automaton) (states transitions : Nat) :
    a.Packed states transitions [] ↔
      a.states.length ≤ states ∧ a.transitions.length ≤ transitions := by
  refine ⟨?_, ?_⟩
  · intro h
    rcases h with ⟨ms, hrows, hflags, htrans, -⟩
    cases ms with
    | cons m ms => cases hrows
    | nil => exact ⟨List.drop_eq_nil_iff.1 hflags, List.drop_eq_nil_iff.1 htrans⟩
  · intro h
    rcases h with ⟨hs, ht⟩
    exact ⟨[], rfl, List.drop_eq_nil_iff.2 hs, List.drop_eq_nil_iff.2 ht, by simp⟩

theorem packed_cons_iff (a : Automaton) (states transitions : Nat) (row : UnitRow)
    (rows : List UnitRow) : a.Packed states transitions (row :: rows) ↔
      row.firstState = states ∧ row.firstTransition = transitions ∧
        (a.machineAt row).flags.length = row.stateCount ∧
        (a.machineAt row).transitions.length = row.transitionCount ∧ (a.machineAt row).Closed ∧
        a.Packed (states + row.stateCount) (transitions + row.transitionCount) rows := by
  refine ⟨?_, ?_⟩
  · intro h
    rcases h with ⟨ms, hrows, hflags, htrans, hms⟩
    cases ms with
    | nil => cases hrows
    | cons m ms =>
      rw [rowsOf, List.cons.injEq] at hrows
      obtain ⟨rfl, rfl⟩ := hrows
      rw [List.flatMap_cons] at hflags htrans
      have hm : a.machineAt ⟨m.name, states, m.flags.length, transitions, m.transitions.length⟩ =
          m := by
        simp only [machineAt, hflags, htrans, List.take_left]
      rw [hm]
      refine ⟨rfl, rfl, rfl, rfl, hms m List.mem_cons_self, ms, rfl, ?_, ?_, ?_⟩
      · rw [← List.drop_drop, hflags, List.drop_left]
      · rw [← List.drop_drop, htrans, List.drop_left]
      · exact fun m' hm' => hms m' (List.mem_cons_of_mem _ hm')
  · intro h
    rcases h with ⟨rfl, rfl, hs, ht, hclosed, ms, hrows, hflags, htrans, hms⟩
    refine ⟨a.machineAt row :: ms, ?_, ?_, ?_, List.forall_mem_cons.2 ⟨hclosed, hms⟩⟩
    · rw [rowsOf, hs, ht, ← hrows]
      rfl
    · rw [List.flatMap_cons, ← hflags, ← List.drop_drop]
      exact (List.take_append_drop _ _).symm
    · rw [List.flatMap_cons, ← htrans, ← List.drop_drop]
      exact (List.take_append_drop _ _).symm

/-- From any place of the tables on, the scan finds nothing exactly when the rest of the
tables is a packing of closed machines, and all transitions fit. -/
theorem violationFrom?_eq_none_iff (a : Automaton) (unit states transitions : Nat)
    (rows : List UnitRow) (hs : states ≤ a.states.length)
    (ht : transitions ≤ a.transitions.length) :
    a.violationFrom? unit states transitions rows = none ↔
      a.Packed states transitions rows ∧ ∀ t ∈ a.transitions, a.schema.admits t = true := by
  induction rows generalizing unit states transitions with
  | nil =>
    rw [violationFrom?_nil_eq_none_iff, packed_nil_iff, and_assoc]
    refine ⟨?_, ?_⟩
    · intro h
      rcases h with ⟨rfl, rfl, hadmits⟩
      exact ⟨Nat.le_refl _, Nat.le_refl _, hadmits⟩
    · intro h
      rcases h with ⟨hs', ht', hadmits⟩
      exact ⟨Nat.le_antisymm hs hs', Nat.le_antisymm ht ht', hadmits⟩
  | cons row rows ih =>
    rw [violationFrom?_cons_eq_none_iff, packed_cons_iff]
    refine ⟨?_, ?_⟩
    · intro h
      rcases h with ⟨rfl, rfl, hclosed, hrest⟩
      obtain ⟨hs', ht'⟩ := le_of_violationFrom?_eq_none a _ _ _ _ hrest
      obtain ⟨hpacked, hadmits⟩ := (ih _ _ _ hs' ht').1 hrest
      have hflags : (a.machineAt row).flags.length = row.stateCount := by
        simp only [machineAt, List.length_take, List.length_drop]; omega
      have htrans : (a.machineAt row).transitions.length = row.transitionCount := by
        simp only [machineAt, List.length_take, List.length_drop]; omega
      refine ⟨⟨rfl, rfl, hflags, htrans, ?_, hpacked⟩, hadmits⟩
      rw [Machine.Closed, hflags]
      exact hclosed
    · intro h
      rcases h with ⟨⟨rfl, rfl, hflags, htrans, hclosed, hpacked⟩, hadmits⟩
      have hs' : row.firstState + row.stateCount ≤ a.states.length := by
        simp only [machineAt, List.length_take, List.length_drop] at hflags; omega
      have ht' : row.firstTransition + row.transitionCount ≤ a.transitions.length := by
        simp only [machineAt, List.length_take, List.length_drop] at htrans; omega
      rw [Machine.Closed, hflags] at hclosed
      exact ⟨rfl, rfl, hclosed, (ih _ _ _ hs' ht').2 ⟨hpacked, hadmits⟩⟩

/-- Nothing is found exactly in packings of machines that fit. -/
theorem violation?_eq_none_iff (a : Automaton) :
    a.violation? = none ↔ ∃ ms : List Machine, (∀ m ∈ ms, m.Fits a.schema) ∧
      a = ofMachines a.schema ms a.inputSymbols a.outputSymbols := by
  unfold violation?
  rw [violationFrom?_eq_none_iff a 0 0 0 a.units (Nat.zero_le _) (Nat.zero_le _)]
  refine ⟨?_, ?_⟩
  · intro h
    rcases h with ⟨⟨ms, hrows, hflags, htrans, hms⟩, hadmits⟩
    rw [List.drop_zero] at hflags htrans
    refine ⟨ms, fun m hm => ⟨hms m hm, fun t ht => hadmits t ?_⟩, ?_⟩
    · rw [htrans]
      exact List.mem_flatMap.2 ⟨m, hm, ht⟩
    · cases a
      simp only at hrows hflags htrans
      subst hrows hflags htrans
      rfl
  · intro h
    rcases h with ⟨ms, hfits, ha⟩
    refine ⟨⟨ms, congrArg units ha, ?_, ?_, fun m hm => (hfits m hm).closed⟩, ?_⟩
    · exact congrArg states ha
    · exact congrArg transitions ha
    · intro t ht
      rw [congrArg transitions ha] at ht
      obtain ⟨m, hm, ht⟩ := List.mem_flatMap.1 ht
      exact (hfits m hm).admitted t ht

theorem violation?_ofMachines {schema : Schema} {ms : List Machine}
    (hms : ∀ m ∈ ms, m.Fits schema) (inputs outputs : SymbolTable) :
    (ofMachines schema ms inputs outputs).violation? = none :=
  (violation?_eq_none_iff _).2 ⟨ms, hms, rfl⟩

theorem check_eq_ok_iff (a : Automaton) : a.check = .ok () ↔ a.violation? = none := by
  unfold check
  split
  · simp [*]
  · simp [*]

/-! ## Sound tables -/

theorem length_machines (a : Automaton) : a.machines.length = a.units.length := List.length_map _

theorem machines_eq_nil_iff (a : Automaton) : a.machines = [] ↔ a.units = [] :=
  List.map_eq_nil_iff

theorem exists_machine {a : Automaton} {u : Nat} (hu : u < a.units.length) :
    ∃ m, a.machines[u]? = some m := by
  rw [← length_machines] at hu
  exact ⟨_, List.getElem?_eq_getElem hu⟩

theorem machines_eq_none_iff (a : Automaton) (u : Nat) :
    a.machines[u]? = none ↔ a.units[u]? = none := by
  rw [machines, List.getElem?_map, Option.map_eq_none_iff]

section sound

variable {a : Automaton} {u : Nat} {m : Machine}

theorem fits_of_violation?_eq_none (hsound : a.violation? = none) :
    ∀ m ∈ a.machines, m.Fits a.schema := by
  obtain ⟨ms, hfits, ha⟩ := (violation?_eq_none_iff a).1 hsound
  rw [ha, machines_ofMachines]
  exact hfits

/-- Sound tables are the packing of what they read as. -/
theorem eq_ofMachines (hsound : a.violation? = none) :
    a = ofMachines a.schema a.machines a.inputSymbols a.outputSymbols := by
  obtain ⟨ms, -, ha⟩ := (violation?_eq_none_iff a).1 hsound
  have hmachines : a.machines = ms := by rw [ha, machines_ofMachines]
  rwa [hmachines]

theorem exists_row (hsound : a.violation? = none) (hu : a.machines[u]? = some m) :
    ∃ row, a.units[u]? = some row ∧ row.stateCount = m.flags.length ∧
      row.transitionCount = m.transitions.length := by
  rw [eq_ofMachines hsound, units_ofMachines, hu]
  exact ⟨_, rfl, rfl, rfl⟩

theorem flagsOf_eq (hsound : a.violation? = none) (hu : a.machines[u]? = some m) :
    a.flagsOf u = .ok m.flags := by
  rw [eq_ofMachines hsound]
  exact flagsOf_ofMachines _ _ _ hu

theorem transitionsOf_eq (hsound : a.violation? = none) (hu : a.machines[u]? = some m) :
    a.transitionsOf u = .ok m.transitions := by
  rw [eq_ofMachines hsound]
  exact transitionsOf_ofMachines _ _ _ hu

theorem machineOf_eq (hsound : a.violation? = none) (hu : a.machines[u]? = some m) :
    a.machineOf u = .ok m := by
  unfold machineOf
  rw [flagsOf_eq hsound hu, transitionsOf_eq hsound hu, eq_ofMachines hsound, units_ofMachines, hu]
  rfl

end sound

end Automaton

end WeightedAutomata
