-- What appending a range of units comes to: where it is carried out, the units that stand
-- afterwards, and the symbol tables that go with them.
import WeightedAutomata.Proofs.Composition

namespace WeightedAutomata

/-! ## Tables without names -/

namespace SymbolTable

/-- No column holds a name. There may be columns all the same. -/
def Nameless (table : SymbolTable) : Prop := ∀ column ∈ table.columns, column = []

instance (table : SymbolTable) : Decidable table.Nameless :=
  inferInstanceAs (Decidable (∀ column ∈ table.columns, column = []))

theorem foldl_max_length_eq_zero_iff (columns : List (List String)) (longest : Nat) :
    columns.foldl (fun longest column => max longest column.length) longest = 0 ↔
      longest = 0 ∧ ∀ column ∈ columns, column = [] := by
  induction columns generalizing longest with
  | nil => simp
  | cons column columns ih =>
    rw [List.foldl_cons, ih, Nat.max_eq_zero_iff, List.length_eq_zero_iff, List.forall_mem_cons,
      and_assoc]

theorem isEmpty_iff (table : SymbolTable) : table.isEmpty = true ↔ table.Nameless := by
  unfold isEmpty rowCount Nameless
  rw [beq_iff_eq, foldl_max_length_eq_zero_iff]
  simp

end SymbolTable

namespace Automaton

theorem inheritTable_eq (own other : SymbolTable) :
    inheritTable own other = if own.Nameless ∧ ¬ other.Nameless then other else own := by
  unfold inheritTable
  simp only [Bool.and_eq_true, Bool.not_eq_true', ← Bool.not_eq_true, SymbolTable.isEmpty_iff]

/-! ## Ranges of units -/

variable {target source : Automaton} {first count : Nat}

/-- How many units a range has that begins with unit `first`. It has no more than `count`. -/
def rangeLength (source : Automaton) (first count : Nat) : Nat :=
  min count (source.units.length - first)

theorem length_range (source : Automaton) (first count : Nat) :
    ((source.machines.drop first).take count).length = source.rangeLength first count := by
  rw [List.length_take, List.length_drop, length_machines, rangeLength]

theorem range_eq_nil_iff (source : Automaton) (first count : Nat) :
    (source.machines.drop first).take count = [] ↔ source.rangeLength first count = 0 := by
  rw [← List.length_eq_zero_iff, length_range]

theorem take_rangeLength (source : Automaton) (first count : Nat) :
    (source.machines.drop first).take (source.rangeLength first count) =
      (source.machines.drop first).take count := by
  rw [rangeLength, ← length_machines, ← List.length_drop, ← List.take_eq_take_min]

/-! ## What appending leads to -/

/-- What stands after `k` units of `source`, from unit `first` on, came behind those of `target`.
A table gives way only where it holds no names and the other one does. The tables of an automaton
without units count as tables without columns. -/
structure Appended (target source : Automaton) (first k : Nat) (after : Automaton) : Prop where
  machines : after.machines = target.machines ++ (source.machines.drop first).take k
  schema : after.schema = source.schema
  symbols : ∀ side, after.symbols side =
    let own := if target.units = [] then .empty else target.symbols side
    if own.Nameless ∧ ¬ (source.symbols side).Nameless then source.symbols side else own
  sound : after.violation? = none

theorem isEmpty_iff (a : Automaton) : a.isEmpty = true ↔ a.units = [] := List.isEmpty_iff

theorem machines_appendBase (target source : Automaton) :
    (target.appendBase source).machines = target.machines := by
  unfold appendBase
  split
  · rename_i hempty
    rw [machines, machines, (isEmpty_iff target).1 hempty]
    rfl
  · rfl

theorem symbols_appendBase (target source : Automaton) (side : Side) :
    (target.appendBase source).symbols side =
      if target.units = [] then .empty else target.symbols side := by
  unfold appendBase
  simp only [isEmpty_iff]
  split
  · cases side with
    | input => rfl
    | output => rfl
  · rfl

theorem symbols_withRange (target source : Automaton) (first count : Nat) (side : Side) :
    (target.withRange source first count).symbols side =
      inheritTable ((target.appendBase source).symbols side) (source.symbols side) := by
  cases side with
  | input => rfl
  | output => rfl

/-- Appending is carried out exactly where the range has units and the schemas agree. -/
theorem exists_appendRange_iff (htarget : target.violation? = none)
    (hsource : source.violation? = none) (first count : Nat) :
    (∃ after, target.appendRange source first count = .done () after) ↔
      0 < source.rangeLength first count ∧ (target.units = [] ∨ target.schema = source.schema) := by
  rw [appendRange_eq htarget hsource]
  simp only [range_eq_nil_iff, isEmpty_iff, Nat.pos_iff_ne_zero]
  split
  · simp [*]
  · split
    · simp [*]
    · simp [*]

/-- Where it is carried out, there is but one thing it leads to. -/
theorem eq_withRange_of_appendRange (htarget : target.violation? = none)
    (hsource : source.violation? = none) {after : Automaton}
    (h : target.appendRange source first count = .done () after) :
    after = target.withRange source first count := by
  rw [appendRange_eq htarget hsource] at h
  split at h
  · cases h
  · split at h
    · rw [Outcome.done.injEq] at h
      exact h.2.symm
    · cases h

theorem appended_of_appendRange (htarget : target.violation? = none)
    (hsource : source.violation? = none) {after : Automaton}
    (h : target.appendRange source first count = .done () after) :
    target.Appended source first (source.rangeLength first count) after := by
  have hkept := sound_appendRange htarget hsource first count
  rw [h] at hkept
  refine ⟨?_, ?_, ?_, hkept⟩
  · rw [eq_withRange_of_appendRange htarget hsource h, withRange, machines_ofMachines,
      machines_appendBase, take_rangeLength]
  · rw [eq_withRange_of_appendRange htarget hsource h]
    rfl
  · intro side
    rw [eq_withRange_of_appendRange htarget hsource h, symbols_withRange, symbols_appendBase,
      inheritTable_eq]

/-- An automaton without units hands on nothing of its own. -/
theorem withRange_of_unitless {other : Automaton} (htarget : target.units = [])
    (hother : other.units = []) (source : Automaton) (first count : Nat) :
    target.withRange source first count = other.withRange source first count := by
  unfold withRange appendBase
  rw [if_pos ((isEmpty_iff target).2 htarget), if_pos ((isEmpty_iff other).2 hother)]

/-- Units are appended to sound tables exactly where the range has units and the schemas agree, or
there were no units before. Then the units of the range stand behind the old ones in their order,
with the symbol tables that `Appended` tells. What an automaton without units is otherwise makes no
difference. -/
theorem appendRange_exact (htarget : target.violation? = none)
    (hsource : source.violation? = none) (first count : Nat) :
    ((∃ after, target.appendRange source first count = .done () after) ↔
      0 < source.rangeLength first count ∧
        (target.units = [] ∨ target.schema = source.schema)) ∧
    (∀ after, target.appendRange source first count = .done () after →
      target.Appended source first (source.rangeLength first count) after) ∧
    (target.units = [] → ∀ other after : Automaton, other.violation? = none → other.units = [] →
      target.appendRange source first count = .done () after →
        other.appendRange source first count = .done () after) := by
  refine ⟨exists_appendRange_iff htarget hsource first count, ?_, ?_⟩
  · intro after h
    exact appended_of_appendRange htarget hsource h
  · intro hunits other after hother hunits' h
    have hlength := ((exists_appendRange_iff htarget hsource first count).1 ⟨after, h⟩).1
    obtain ⟨after', h'⟩ :=
      (exists_appendRange_iff hother hsource first count).2 ⟨hlength, Or.inl hunits'⟩
    rw [h', eq_withRange_of_appendRange htarget hsource h,
      eq_withRange_of_appendRange hother hsource h', withRange_of_unitless hunits hunits']

/-- Four units, one of them without states, with names for what they read. -/
def fourUnits : Automaton :=
  ofMachines .acceptor [⟨"first", [1], []⟩,
    ⟨"second", [0, 1], [{ source := 0, target := 1, input := some (.symbol 0) }]⟩,
    ⟨"third", [], []⟩, ⟨"fourth", [0], [{ source := 0, target := 0, input := some .anyChar }]⟩]
    ⟨[["a"]]⟩ ⟨[["b"]]⟩

/-- One unit, with a column without names on one side and a name on the other. -/
def oneUnit : Automaton := ofMachines .acceptor [⟨"own", [1], []⟩] ⟨[[]]⟩ ⟨[["c"]]⟩

theorem appendRange_exact_middle : oneUnit.violation? = none ∧ fourUnits.violation? = none ∧
    ∃ after, oneUnit.appendRange fourUnits 1 2 = .done () after ∧
      oneUnit.Appended fourUnits 1 2 after := by
  obtain ⟨hiff, happended, -⟩ :=
    appendRange_exact (by decide : oneUnit.violation? = none)
      (by decide : fourUnits.violation? = none) 1 2
  obtain ⟨after, hafter⟩ := hiff.2 (by decide)
  exact ⟨by decide, by decide, after, hafter, happended after hafter⟩

end Automaton

end WeightedAutomata
