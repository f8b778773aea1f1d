-- Edits of packed tables are edits of the machines that are packed. Each one changes a single
-- machine, or adds one behind all others, and the tables are packed anew around it. So what an
-- edit does to the rows of later units can be read off the packing.
import WeightedAutomata.Automaton.Edit
import WeightedAutomata.Proofs.Packing

namespace WeightedAutomata

namespace Automaton

/-! ## Rows of a packing -/

theorem length_rowsOf (states transitions : Nat) (ms : List Machine) :
    (rowsOf states transitions ms).length = ms.length := by
  induction ms generalizing states transitions with
  | nil => rfl
  | cons m ms ih => rw [rowsOf, List.length_cons, List.length_cons, ih]

theorem rowsOf_append (states transitions : Nat) (ms ms' : List Machine) :
    rowsOf states transitions (ms ++ ms') = rowsOf states transitions ms ++
      rowsOf (states + (ms.flatMap (·.flags)).length)
        (transitions + (ms.flatMap (·.transitions)).length) ms' := by
  induction ms generalizing states transitions with
  | nil => rfl
  | cons m ms ih =>
    rw [List.cons_append, rowsOf, rowsOf, ih, List.flatMap_cons, List.flatMap_cons,
      List.length_append, List.length_append, Nat.add_assoc, Nat.add_assoc, List.cons_append]

/-- Rows moved along are the rows of the same machines packed further back. -/
theorem map_rowsOf {move : UnitRow → UnitRow} {states transitions : Nat}
    (hmove : ∀ row, move row = { row with
      firstState := row.firstState + states
      firstTransition := row.firstTransition + transitions }) (s t : Nat) (ms : List Machine) :
    (rowsOf s t ms).map move = rowsOf (s + states) (t + transitions) ms := by
  induction ms generalizing s t with
  | nil => rfl
  | cons m ms ih =>
    rw [rowsOf, List.map_cons, ih, rowsOf, hmove]
    simp only [Nat.add_right_comm]

theorem changeRows_append (before after : List UnitRow) (row : UnitRow)
    (own later : UnitRow → UnitRow) :
    changeRows (before ++ row :: after) before.length own later =
      before ++ own row :: after.map later := by
  apply List.ext_getElem?
  intro i
  unfold changeRows
  rw [List.getElem?_mapIdx]
  rcases Nat.lt_trichotomy i before.length with hlt | rfl | hlt
  · rw [List.getElem?_append_left hlt, List.getElem?_append_left hlt]
    simp [hlt]
  · simp
  · obtain ⟨k, rfl⟩ : ∃ k, i = before.length + (k + 1) := ⟨i - before.length - 1, by omega⟩
    rw [List.getElem?_append_right (by omega), List.getElem?_append_right (by omega)]
    have hne : ¬ before.length + (k + 1) < before.length := by omega
    simp [hne]

/-- A list around one of its items. -/
theorem exists_around {α : Type} {l : List α} {i : Nat} {x : α} (h : l[i]? = some x) :
    ∃ before after, before.length = i ∧ l = before ++ x :: after ∧
      ∀ y, l.set i y = before ++ y :: after := by
  obtain ⟨hlt, rfl⟩ := List.getElem?_eq_some_iff.1 h
  refine ⟨l.take i, l.drop (i + 1), List.length_take_of_le (Nat.le_of_lt hlt), ?_, ?_⟩
  · rw [List.getElem_cons_drop, List.take_append_drop]
  · intro y
    exact List.set_eq_take_append_cons_drop.trans (if_pos hlt)

/-! ## Edits of a packing -/

section edits

variable {schema : Schema} {ms : List Machine} {inputs outputs : SymbolTable} {u : Nat}
  {m : Machine}

/-- A new unit is a machine without states behind all others. -/
theorem addUnit_ofMachines (name : String) : (ofMachines schema ms inputs outputs).addUnit name =
    (ms.length, ofMachines schema (ms ++ [⟨name, [], []⟩]) inputs outputs) := by
  simp [addUnit, ofMachines, rowsOf_append, rowsOf, length_rowsOf]

/-- The tables of a packing around one of its machines. -/
theorem ofMachines_around (before after : List Machine) (m : Machine) :
    ofMachines schema (before ++ m :: after) inputs outputs =
      { schema
        units := rowsOf 0 0 before ++ ⟨m.name, (before.flatMap (·.flags)).length, m.flags.length,
            (before.flatMap (·.transitions)).length, m.transitions.length⟩ ::
          rowsOf ((before.flatMap (·.flags)).length + m.flags.length)
            ((before.flatMap (·.transitions)).length + m.transitions.length) after
        states := before.flatMap (·.flags) ++ (m.flags ++ after.flatMap (·.flags))
        transitions :=
          before.flatMap (·.transitions) ++ (m.transitions ++ after.flatMap (·.transitions))
        inputSymbols := inputs
        outputSymbols := outputs } := by
  simp [ofMachines, rowsOf_append, rowsOf]

/-- A change of the rows of a packing from one machine on. -/
theorem changeRows_around (before after : List Machine) (s t : Nat) (row : UnitRow)
    (own : UnitRow → UnitRow) {later : UnitRow → UnitRow} (states transitions : Nat)
    (hlater : ∀ row, later row = { row with
      firstState := row.firstState + states
      firstTransition := row.firstTransition + transitions }) :
    changeRows (rowsOf 0 0 before ++ row :: rowsOf s t after) before.length own later =
      rowsOf 0 0 before ++ own row :: rowsOf (s + states) (t + transitions) after := by
  rw [← map_rowsOf hlater, ← length_rowsOf 0 0 before, changeRows_append]

theorem getElem?_around (before : List Machine) (row : UnitRow) (rows : List UnitRow) :
    (rowsOf 0 0 before ++ row :: rows)[before.length]? = some row := by
  rw [← length_rowsOf 0 0 before, List.getElem?_append_right (Nat.le_refl _), Nat.sub_self]
  rfl

theorem insert_around {α : Type} (xs ys zs new : List α) :
    (xs ++ (ys ++ zs)).take (xs.length + ys.length) ++ new ++
        (xs ++ (ys ++ zs)).drop (xs.length + ys.length) = xs ++ (ys ++ new ++ zs) := by
  rw [← List.append_assoc xs, ← List.length_append, List.take_left, List.drop_left]
  simp only [List.append_assoc]

theorem insert_one_around {α : Type} (xs ys zs : List α) (x : α) :
    (xs ++ (ys ++ zs)).take (xs.length + ys.length) ++
        x :: (xs ++ (ys ++ zs)).drop (xs.length + ys.length) = xs ++ (ys ++ [x] ++ zs) := by
  rw [← insert_around, List.append_assoc, List.singleton_append]

theorem modify_around {α : Type} (xs ys zs : List α) {i : Nat} (hi : i < ys.length) (f : α → α) :
    (xs ++ (ys ++ zs)).modify (xs.length + i) f = xs ++ (ys.modify i f ++ zs) := by
  induction xs with
  | cons x xs ih =>
    rw [List.cons_append, List.length_cons, Nat.add_right_comm, List.modify_succ_cons, ih]
    rfl
  | nil =>
    rw [List.length_nil, Nat.zero_add, List.nil_append, List.nil_append]
    induction ys generalizing i with
    | nil => exact absurd hi (Nat.not_lt_zero i)
    | cons y ys ih =>
      cases i with
      | zero => rfl
      | succ i =>
        rw [List.cons_append, List.modify_succ_cons, ih (Nat.lt_of_succ_lt_succ hi)]
        rfl

theorem insertStates_ofMachines (hu : ms[u]? = some m) (count : Nat) (final : Bool) :
    (ofMachines schema ms inputs outputs).insertStates u count final =
      .done m.flags.length (ofMachines schema
        (ms.set u { m with flags := m.flags ++ List.replicate count (Flags.ofFinal final) })
        inputs outputs) := by
  obtain ⟨before, after, rfl, rfl, hset⟩ := exists_around hu
  rw [hset, ofMachines_around, ofMachines_around]
  unfold insertStates
  dsimp only
  rw [getElem?_around before]
  dsimp only
  rw [if_neg (by simp [← Nat.add_assoc]), changeRows_around before after _ _ _ _ count 0 (by simp),
    insert_around, List.length_append, List.length_replicate, Nat.add_zero, Nat.add_assoc]

theorem addTransition_ofMachines (hu : ms[u]? = some m) {t : Transition}
    (hsource : t.source < m.flags.length) (htarget : t.target < m.flags.length)
    (hadmits : schema.admits (schema.complete t) = true) :
    (ofMachines schema ms inputs outputs).addTransition u t =
      .done (told m.transitions.length) (ofMachines schema
        (ms.set u { m with transitions := m.transitions ++ [schema.complete t] })
        inputs outputs) := by
  obtain ⟨before, after, rfl, rfl, hset⟩ := exists_around hu
  rw [hset, ofMachines_around, ofMachines_around]
  unfold addTransition
  dsimp only
  rw [getElem?_around before]
  dsimp only
  rw [if_neg (Nat.not_le.2 hsource), if_neg (Nat.not_le.2 htarget), if_pos hadmits,
    if_neg (by simp [← Nat.add_assoc]), changeRows_around before after _ _ _ _ 0 1 (by simp),
    insert_one_around, List.length_append, List.length_singleton]
  rfl

theorem setFinal_ofMachines (hu : ms[u]? = some m) {state : Nat} (hstate : state < m.flags.length)
    (final : Bool) : (ofMachines schema ms inputs outputs).setFinal u state final =
      .done () (ofMachines schema
        (ms.set u { m with flags := m.flags.modify state (·.withFinal final) })
        inputs outputs) := by
  obtain ⟨before, after, rfl, rfl, hset⟩ := exists_around hu
  rw [hset, ofMachines_around, ofMachines_around]
  unfold setFinal
  dsimp only
  rw [getElem?_around before]
  dsimp only
  rw [if_pos hstate, if_pos (by simp; omega), modify_around _ _ _ hstate, List.length_modify]

end edits

end Automaton

/-! ## Sound outcomes -/

/-- Nothing broke, and sound tables stand afterwards. -/
def Outcome.Sound {α : Type} : Outcome α → Prop
  | .done _ after => after.violation? = none
  | .refused _ after => after.violation? = none
  | .broken _ => False

/-- The automaton that stands after an edit, refused or not. -/
def Outcome.tables {α : Type} : Outcome α → Except Fault Automaton
  | .done _ after => .ok after
  | .refused _ after => .ok after
  | .broken fault => .error fault

theorem Outcome.Sound.exists_tables {α : Type} {o : Outcome α} (h : o.Sound) :
    ∃ after, o.tables = .ok after ∧ after.violation? = none := by
  cases o with
  | done value after => exact ⟨after, rfl, h⟩
  | refused error after => exact ⟨after, rfl, h⟩
  | broken fault => exact h.elim

/-! ## Machines that fit after an edit -/

section machines

variable {schema : Schema} {m : Machine}

theorem Machine.Fits.moreStates (hm : m.Fits schema) (flags : List Flags) :
    ({ m with flags := m.flags ++ flags } : Machine).Fits schema := by
  refine ⟨?_, hm.admitted⟩
  intro t ht
  obtain ⟨hsource, htarget⟩ := hm.closed t ht
  dsimp only
  rw [List.length_append]
  omega

theorem Machine.Fits.moreTransitions (hm : m.Fits schema) {t : Transition}
    (hsource : t.source < m.flags.length) (htarget : t.target < m.flags.length)
    (hadmits : schema.admits t = true) :
    ({ m with transitions := m.transitions ++ [t] } : Machine).Fits schema := by
  refine ⟨?_, ?_⟩
  · intro t' ht'
    rcases List.mem_append.1 ht' with ht' | ht'
    · exact hm.closed t' ht'
    · rw [List.mem_singleton.1 ht']
      exact ⟨hsource, htarget⟩
  · intro t' ht'
    rcases List.mem_append.1 ht' with ht' | ht'
    · exact hm.admitted t' ht'
    · rw [List.mem_singleton.1 ht']
      exact hadmits

theorem Machine.Fits.modifyFlags (hm : m.Fits schema) (state : Nat) (change : Flags → Flags) :
    ({ m with flags := m.flags.modify state change } : Machine).Fits schema := by
  refine ⟨?_, hm.admitted⟩
  unfold Machine.Closed
  rw [List.length_modify]
  exact hm.closed

theorem Schema.ends_complete (schema : Schema) (t : Transition) :
    (schema.complete t).source = t.source ∧ (schema.complete t).target = t.target := by
  unfold Schema.complete
  split
  · exact ⟨rfl, rfl⟩
  · exact ⟨rfl, rfl⟩

end machines

namespace Automaton

/-! ## Sound tables after an edit -/

variable {a : Automaton}

theorem violation?_empty (schema : Schema) : (empty schema).violation? = none :=
  violation?_ofMachines (List.forall_mem_nil _) {} {}

theorem violation?_setSymbols (hsound : a.violation? = none) (side : Side) (table : SymbolTable) :
    (a.setSymbols side table).violation? = none := by
  have hfits := fits_of_violation?_eq_none hsound
  rw [eq_ofMachines hsound]
  cases side with
  | input => exact violation?_ofMachines hfits table a.outputSymbols
  | output => exact violation?_ofMachines hfits a.inputSymbols table

theorem addUnit_eq (hsound : a.violation? = none) (name : String) : a.addUnit name =
    (a.machines.length, ofMachines a.schema (a.machines ++ [⟨name, [], []⟩]) a.inputSymbols
      a.outputSymbols) := by
  conv => lhs; rw [eq_ofMachines hsound]
  exact addUnit_ofMachines name

theorem violation?_addUnit (hsound : a.violation? = none) (name : String) :
    (a.addUnit name).2.violation? = none := by
  rw [addUnit_eq hsound]
  apply violation?_ofMachines
  intro m hm
  rcases List.mem_append.1 hm with hm | hm
  · exact fits_of_violation?_eq_none hsound m hm
  · rw [List.mem_singleton.1 hm]
    exact ⟨List.forall_mem_nil _, List.forall_mem_nil _⟩

/-- A machine of sound tables may give way to another that fits. -/
theorem violation?_set (hsound : a.violation? = none) (u : Nat) {m : Machine}
    (hm : m.Fits a.schema) (inputs outputs : SymbolTable) :
    (ofMachines a.schema (a.machines.set u m) inputs outputs).violation? = none := by
  apply violation?_ofMachines
  intro m' hm'
  rcases List.mem_or_eq_of_mem_set hm' with hm' | rfl
  · exact fits_of_violation?_eq_none hsound m' hm'
  · exact hm

/-! ## Edits of sound tables -/

variable {u : Nat} {m : Machine}

theorem addStates_badUnit (hu : a.machines[u]? = none) (count : Nat) (final : Bool) :
    a.addStates u count final = .refused (.badUnit u a.units.length) a := by
  unfold addStates insertStates
  rw [(machines_eq_none_iff a u).1 hu]
  rfl

theorem addStates_eq (hsound : a.violation? = none) (hu : a.machines[u]? = some m) (count : Nat)
    (final : Bool) : a.addStates u count final =
      .done (told m.flags.length) (ofMachines a.schema
        (a.machines.set u { m with flags := m.flags ++ List.replicate count (Flags.ofFinal final) })
        a.inputSymbols a.outputSymbols) := by
  conv => lhs; rw [eq_ofMachines hsound]
  unfold addStates
  rw [insertStates_ofMachines hu count final]
  rfl

theorem setFinal_badUnit (hu : a.machines[u]? = none) (state : Nat) (final : Bool) :
    a.setFinal u state final = .refused (.badUnit u a.units.length) a := by
  unfold setFinal
  rw [(machines_eq_none_iff a u).1 hu]

theorem setFinal_eq (hsound : a.violation? = none) (hu : a.machines[u]? = some m) (state : Nat)
    (final : Bool) : a.setFinal u state final =
      if state < m.flags.length then
        .done () (ofMachines a.schema
          (a.machines.set u { m with flags := m.flags.modify state (·.withFinal final) })
          a.inputSymbols a.outputSymbols)
      else .refused (.badState u state m.flags.length) a := by
  by_cases hstate : state < m.flags.length
  · rw [if_pos hstate]
    conv => lhs; rw [eq_ofMachines hsound]
    exact setFinal_ofMachines hu hstate final
  · obtain ⟨row, hrow, hcount, -⟩ := exists_row hsound hu
    unfold setFinal
    rw [hrow]
    dsimp only
    rw [if_neg (by omega), if_neg hstate, hcount]

theorem addTransition_badUnit (hu : a.machines[u]? = none) (t : Transition) :
    a.addTransition u t = .refused (.badUnit u a.units.length) a := by
  unfold addTransition
  rw [(machines_eq_none_iff a u).1 hu]

theorem addTransition_eq (hsound : a.violation? = none) (hu : a.machines[u]? = some m)
    (t : Transition) : a.addTransition u t =
      if m.flags.length ≤ t.source then .refused (.badState u t.source m.flags.length) a
      else if m.flags.length ≤ t.target then .refused (.badState u t.target m.flags.length) a
      else if a.schema.admits (a.schema.complete t) then
        .done (told m.transitions.length) (ofMachines a.schema
          (a.machines.set u { m with transitions := m.transitions ++ [a.schema.complete t] })
          a.inputSymbols a.outputSymbols)
      else .refused (.schemaMismatch (.transition (a.schema.complete t) a.schema)) a := by
  obtain ⟨row, hrow, hcount, -⟩ := exists_row hsound hu
  by_cases h : t.source < m.flags.length ∧ t.target < m.flags.length ∧
      a.schema.admits (a.schema.complete t) = true
  · obtain ⟨hsource, htarget, hadmits⟩ := h
    rw [if_neg (Nat.not_le.2 hsource), if_neg (Nat.not_le.2 htarget), if_pos hadmits]
    conv => lhs; rw [eq_ofMachines hsound]
    exact addTransition_ofMachines hu hsource htarget hadmits
  · unfold addTransition
    rw [hrow]
    dsimp only
    rw [hcount]
    split
    · rfl
    · split
      · rfl
      · rename_i hsource htarget
        have hadmits : ¬ a.schema.admits (a.schema.complete t) = true := fun hadmits =>
          h ⟨Nat.not_le.1 hsource, Nat.not_le.1 htarget, hadmits⟩
        rw [if_neg hadmits, if_neg hadmits]

theorem sound_addStates (hsound : a.violation? = none) (u count : Nat) (final : Bool) :
    (a.addStates u count final).Sound := by
  rcases hu : a.machines[u]? with _ | m
  · rw [addStates_badUnit hu]
    exact hsound
  · have hm := fits_of_violation?_eq_none hsound m (List.mem_of_getElem? hu)
    rw [addStates_eq hsound hu]
    exact violation?_set hsound u (hm.moreStates _) _ _

theorem sound_setFinal (hsound : a.violation? = none) (u state : Nat) (final : Bool) :
    (a.setFinal u state final).Sound := by
  rcases hu : a.machines[u]? with _ | m
  · rw [setFinal_badUnit hu]
    exact hsound
  · have hm := fits_of_violation?_eq_none hsound m (List.mem_of_getElem? hu)
    rw [setFinal_eq hsound hu]
    split
    · exact violation?_set hsound u (hm.modifyFlags _ _) _ _
    · exact hsound

theorem sound_addTransition (hsound : a.violation? = none) (u : Nat) (t : Transition) :
    (a.addTransition u t).Sound := by
  rcases hu : a.machines[u]? with _ | m
  · rw [addTransition_badUnit hu]
    exact hsound
  · have hm := fits_of_violation?_eq_none hsound m (List.mem_of_getElem? hu)
    obtain ⟨hs, ht⟩ := a.schema.ends_complete t
    rw [addTransition_eq hsound hu]
    split
    · exact hsound
    · split
      · exact hsound
      · split
        · rename_i hsource htarget hadmits
          exact violation?_set hsound u
            (hm.moreTransitions (hs ▸ Nat.not_le.1 hsource) (ht ▸ Nat.not_le.1 htarget) hadmits) _ _
        · exact hsound

end Automaton

end WeightedAutomata
