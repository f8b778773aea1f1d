-- An expansion grown by edits. A state is copied when its origin is met for the first time, and a
-- transition is added once both its ends are there. None of these edits is refused, and what has
-- grown in the end is the expansion.
import WeightedAutomata.Proofs.Appending
import WeightedAutomata.Proofs.Expansion.Units

namespace WeightedAutomata

/-- Carries out one step per item, in order, up to the first refusal. A step goes on with what
the one before told. -/
def Outcome.fold {α β : Type} (step : β → α → Automaton → Outcome β) (value : β) :
    List α → Automaton → Outcome β
  | [], a => .done value a
  | item :: items, a => (step value item a).andThen fun next after => fold step next items after

theorem Schema.complete_of_admits {schema : Schema} {t : Transition}
    (h : schema.admits t = true) : schema.complete t = t := by
  unfold complete
  split
  · rename_i hsemiring hweight
    simp [admits, hsemiring, hweight] at h
  · rfl

namespace Expansion

/-! ## Growing -/

/-- The origins met so far in order, and the number of the state for each. -/
structure Met where
  origins : Array Origin
  numbers : Std.HashMap Origin Nat

/-- Adds a copy of a state of `m` to the first unit, with all of its flag byte, and tells its
number. -/
def copyState (m : Machine) (state : Nat) (a : Automaton) : Outcome Nat :=
  match m.flags[state]? with
  | none => .broken .missingRow
  | some flags =>
    (a.insertStates 0 1 false).andThen fun number after =>
      match after.units[0]? with
      | none => .broken .missingRow
      | some row =>
        .done number { after with states := after.states.set (row.firstState + number) flags }

/-- The number of the state for an origin, which is copied when it was not met before. -/
def meet (m : Machine) (met : Met) (o : Origin) (a : Automaton) : Outcome (Nat × Met) :=
  match met.numbers[o]? with
  | some number => .done (number, met) a
  | none =>
    (copyState m o.state a).andThen fun number after =>
      .done (number, ⟨met.origins.push o, met.numbers.insert o number⟩) after

/-- Adds a transition that leaves the state of number `source`. -/
def growArc (m : Machine) (source : Nat) (met : Met) (t : Transition) (a : Automaton) :
    Outcome Met :=
  (meet m met (.of t) a).andThen fun (target, next) after =>
    (after.addTransition 0 { t with source, target }).andThen fun _ after => .done next after

/-- Adds all transitions that leave the state of number `source`, once it is met. -/
def growState (m : Machine) (index : TransitionIndex) (met : Met) (source : Nat) (a : Automaton) :
    Outcome Met :=
  match met.origins[source]? with
  | none => .done met a
  | some origin => Outcome.fold (growArc m source) met (index.transitions origin.state) a

/-- The expansion of a machine in a container of its own, with the schema and the symbols of
`source`. -/
def growMachine (source : Automaton) (m : Machine) : Outcome Unit :=
  let unit := (Automaton.ofMachines source.schema [] source.inputSymbols source.outputSymbols
    |>.addUnit m.name).2
  if m.flags.isEmpty then .done () unit
  else
    let index := TransitionIndex.ofTransitions m.flags.length m.transitions .outgoing
    (copyState m 0 unit).andThen fun number after =>
      let met : Met := ⟨#[.start], Std.HashMap.emptyWithCapacity.insert .start number⟩
      (Outcome.fold (growState m index) met (List.range (m.transitions.length + 1)) after).andThen
        fun _ after => .done () after

/-! ## What has grown -/

/-- What a scan has met. -/
def Scan.met (scan : Scan) : Met := ⟨scan.origins, scan.numbers⟩

/-- The container that has grown along with a scan. -/
def container (source : Automaton) (m : Machine) (scan : Scan) : Automaton :=
  .ofMachines source.schema
    [{ m with
      flags := scan.origins.toList.map fun o => m.flags[o.state]?.getD 0
      transitions := scan.transitions.toList }]
    source.inputSymbols source.outputSymbols

section growth

variable {source : Automaton} {m : Machine} {scan : Scan} {index : TransitionIndex}

theorem copyState_ofMachines {schema : Schema} {inputs outputs : SymbolTable} {d : Machine}
    {state : Nat} {flags : Flags} (hstate : m.flags[state]? = some flags) :
    copyState m state (.ofMachines schema [d] inputs outputs) =
      .done d.flags.length
        (.ofMachines schema [{ d with flags := d.flags ++ [flags] }] inputs outputs) := by
  unfold copyState
  rw [hstate]
  dsimp only
  rw [Automaton.insertStates_ofMachines (show [d][0]? = some d from rfl)]
  simp [Outcome.andThen, Automaton.ofMachines, Automaton.rowsOf]

theorem Scan.number_lt (hscan : scan.Numbered) (o : Origin) :
    (scan.number o).1 < (scan.number o).2.origins.size := by
  unfold number
  cases hn : scan.numbers[o]? with
  | some n =>
    have hlt := (List.getElem?_eq_some_iff.1 ((hscan o n).1 hn)).1
    rwa [Array.length_toList] at hlt
  | none => simp

theorem Scan.size_le_number (scan : Scan) (o : Origin) :
    scan.origins.size ≤ (scan.number o).2.origins.size := by
  unfold number
  cases scan.numbers[o]? with
  | some n => exact Nat.le_refl _
  | none => simp

/-- An origin is met in the container as it is numbered by the scan. -/
theorem meet_container (source : Automaton) (scan : Scan) {o : Origin}
    (ho : o.state < m.flags.length) : meet m scan.met o (container source m scan) =
      .done ((scan.number o).1, (scan.number o).2.met) (container source m (scan.number o).2) := by
  unfold meet Scan.number Scan.met
  dsimp only
  cases hn : scan.numbers[o]? with
  | some n => rfl
  | none =>
    have hflags : m.flags[o.state]? = some m.flags[o.state] := List.getElem?_eq_getElem ho
    dsimp only
    rw [container, copyState_ofMachines hflags]
    simp [Outcome.andThen, container, hflags]

theorem growArc_container (hm : m.Fits source.schema) (hscan : scan.Numbered) {k : Nat}
    (hk : k < scan.origins.size) {t : Transition} (ht : t ∈ m.transitions) :
    growArc m k scan.met t (container source m scan) =
      .done (scan.follow k t).met (container source m (scan.follow k t)) := by
  have htarget : (Origin.of t).state < m.flags.length := (hm.closed t ht).2
  have hnumber := scan.number_lt hscan (.of t)
  have hsize := scan.size_le_number (.of t)
  unfold growArc Scan.follow
  rw [meet_container source scan htarget]
  rcases hnext : scan.number (.of t) with ⟨n, next⟩
  rw [hnext] at hnumber hsize
  unfold Outcome.andThen
  dsimp only at hnumber hsize ⊢
  -- What is left to do is one edit of the container, which has both ends by now.
  have hadmits : source.schema.admits { t with source := k, target := n } = true :=
    hm.admitted t ht
  have hcomplete := Schema.complete_of_admits hadmits
  unfold container
  rw [Automaton.addTransition_ofMachines (List.getElem?_cons_zero) _ _ (hcomplete.symm ▸ hadmits)]
  · simp only [hcomplete, Scan.met, List.set_cons_zero, Array.toList_push]
  · simp only [List.length_map, Array.length_toList]
    omega
  · simpa using hnumber

theorem fold_growArc_container (hm : m.Fits source.schema) (hscan : scan.Numbered) {k : Nat}
    (hk : k < scan.origins.size) {ts : List Transition} (hts : ∀ t ∈ ts, t ∈ m.transitions) :
    Outcome.fold (growArc m k) scan.met ts (container source m scan) =
      .done (ts.foldl (Scan.follow k) scan).met
        (container source m (ts.foldl (Scan.follow k) scan)) := by
  induction ts generalizing scan with
  | nil => rfl
  | cons t ts ih =>
    obtain ⟨ht, hrest⟩ := List.forall_mem_cons.1 hts
    have hdraws : Scan.Draws k [t] scan (scan.follow k t) := Scan.draws_follow hscan t
    have hgrows := hdraws.grows.length_le
    rw [Array.length_toList, Array.length_toList] at hgrows
    unfold Outcome.fold
    rw [growArc_container hm hscan hk ht]
    exact ih hdraws.numbered (Nat.lt_of_lt_of_le hk hgrows) hrest

theorem Scan.numbered_visit (hscan : scan.Numbered) (k : Nat) : (scan.visit index k).Numbered := by
  unfold visit
  split
  · exact hscan
  · rename_i origin _
    have hdraws : Draws k (index.transitions origin.state) scan
        ((index.transitions origin.state).foldl (follow k) scan) := draws_foldl hscan _
    exact hdraws.numbered

theorem growState_container (hm : m.Fits source.schema) (hscan : scan.Numbered)
    (hindex : ∀ state, index.transitions state = m.leaving state) (k : Nat) :
    growState m index scan.met k (container source m scan) =
      .done (scan.visit index k).met (container source m (scan.visit index k)) := by
  unfold growState Scan.visit
  cases horigin : scan.origins[k]? with
  | none => simp only [Scan.met, horigin]
  | some o =>
    have hk : k < scan.origins.size := (Array.getElem?_eq_some_iff.1 horigin).1
    simp only [Scan.met, horigin, hindex]
    exact fold_growArc_container hm hscan hk fun t ht => (List.mem_filter.1 ht).1

theorem fold_growState_container (hm : m.Fits source.schema) (hscan : scan.Numbered)
    (hindex : ∀ state, index.transitions state = m.leaving state) (ks : List Nat) :
    Outcome.fold (growState m index) scan.met ks (container source m scan) =
      .done (ks.foldl (Scan.visit index) scan).met
        (container source m (ks.foldl (Scan.visit index) scan)) := by
  induction ks generalizing scan with
  | nil => rfl
  | cons k ks ih =>
    unfold Outcome.fold
    rw [growState_container hm hscan hindex]
    exact ih (Scan.numbered_visit hscan k)

/-- What has grown along with the whole scan is the expansion. -/
theorem container_scan (source : Automaton) (hstates : m.flags ≠ []) {m' : Machine}
    (hexpand : m.expand = .ok m') : container source m (Expansion.scan m) =
      .ofMachines source.schema [m'] source.inputSymbols source.outputSymbols := by
  unfold Machine.expand at hexpand
  rw [if_neg (by simpa using hstates)] at hexpand
  dsimp only at hexpand
  split at hexpand
  · rw [Except.ok.injEq] at hexpand
    rw [← hexpand]
    simp only [container, List.getElem?_toArray]
  · cases hexpand

/-- What a machine grows to is its expansion. -/
theorem growMachine_eq (hm : m.Fits source.schema) {m' : Machine} (hexpand : m.expand = .ok m') :
    growMachine source m =
      .done () (.ofMachines source.schema [m'] source.inputSymbols source.outputSymbols) := by
  unfold growMachine
  rw [Automaton.addUnit_ofMachines, List.nil_append]
  dsimp only
  by_cases hstates : m.flags = []
  · rw [m.expand_of_stateless hm.closed hstates, Except.ok.injEq] at hexpand
    have htransitions := hm.closed.transitions_eq_nil hstates
    have hm' : (⟨m.name, [], []⟩ : Machine) = m' := by rw [← hexpand, ← hstates, ← htransitions]
    rw [if_pos (by rw [hstates]; rfl), hm']
  · obtain ⟨flags, hflags⟩ : ∃ flags, m.flags[0]? = some flags :=
      ⟨_, List.getElem?_eq_getElem (List.length_pos_iff.2 hstates)⟩
    have hends : ∀ t ∈ m.transitions, t.endAt .outgoing < m.flags.length :=
      fun t ht => (hm.closed t ht).1
    have hstart : .ofMachines source.schema [⟨m.name, [flags], []⟩] source.inputSymbols
        source.outputSymbols = container source m .start := by
      simp [container, Scan.start, Origin.start, hflags]
    have hgrown := fold_growState_container hm Scan.numbered_start
      (TransitionIndex.transitions_ofTransitions hends) (List.range (m.transitions.length + 1))
    rw [if_neg (by simpa using hstates), copyState_ofMachines hflags]
    dsimp only [Outcome.andThen, List.nil_append, List.length_nil]
    rw [hstart, ← container_scan source hstates hexpand]
    exact congrArg (Outcome.andThen · fun _ after => .done () after) hgrown

end growth

end Expansion

namespace Automaton

open Expansion

/-! ## Whole automata -/

/-- Replaces `target` by what came about in a container of its own. If that was refused, it
stays. -/
def replacedBy (target : Automaton) : Outcome Unit → Outcome Unit
  | .done _ after => .done () after
  | .refused error _ => .refused error target
  | .broken fault => .broken fault

/-- Grows the expansion of a machine and appends it to those that were grown before. -/
def growBehind (source all : Automaton) (m : Machine) : Outcome Unit :=
  match growMachine source m with
  | .done _ grown => all.append grown
  | .refused error _ => .refused error all
  | .broken fault => .broken fault

/-- The expansions of all machines, with the symbols of `source` in the end. -/
def growAll (source : Automaton) : Outcome Unit :=
  (Outcome.forEach source.growBehind (empty source.schema) source.machines).andThen fun _ all =>
    .done () { all with
      inputSymbols := source.inputSymbols
      outputSymbols := source.outputSymbols }

/-- Replaces `target` by an expansion of `source` that has grown edit by edit. -/
def becomeGrown (target source : Automaton) (unit : Option Nat) : Outcome Unit :=
  .ofExcept source.check fun _ =>
    match unit with
    | none => target.replacedBy source.growAll
    | some u =>
      match source.machines[u]? with
      | none => .refused (.badUnit u source.units.length) target
      | some m => target.replacedBy (growMachine source m)

variable {source all : Automaton} {m m' : Machine}

theorem exists_growBehind (hall : all.violation? = none) (hschema : all.schema = source.schema)
    (hm : m.Fits source.schema) (hexpand : m.expand = .ok m') (hm' : m'.Fits source.schema) :
    ∃ after, source.growBehind all m = .done () after ∧
      after.machines = all.machines ++ [m'] ∧ after.schema = source.schema ∧
      after.violation? = none := by
  have hgrown : (ofMachines source.schema [m'] source.inputSymbols
      source.outputSymbols).violation? = none := violation?_ofMachines (by simpa using hm') _ _
  obtain ⟨after, hafter⟩ := (exists_appendRange_iff hall hgrown 0 1).2
    ⟨Nat.one_pos, Or.inr hschema⟩
  obtain ⟨hmachines, hschema', -, hsound⟩ := appended_of_appendRange hall hgrown hafter
  unfold growBehind
  rw [growMachine_eq hm hexpand]
  refine ⟨after, hafter, ?_, hschema', hsound⟩
  rw [hmachines, take_rangeLength, machines_ofMachines]
  rfl

theorem exists_forEach_growBehind (source : Automaton) {all : Automaton}
    (hall : all.violation? = none) (hschema : all.schema = source.schema) {ms ms' : List Machine}
    (hexpand : ms.map Machine.expand = ms'.map .ok) (hms : ∀ m ∈ ms, m.Fits source.schema)
    (hms' : ∀ m' ∈ ms', m'.Fits source.schema) :
    ∃ after, Outcome.forEach source.growBehind all ms = .done () after ∧
      after.machines = all.machines ++ ms' ∧ after.schema = source.schema ∧
      after.violation? = none := by
  induction ms generalizing all ms' with
  | nil =>
    cases ms' with
    | nil => exact ⟨all, rfl, (List.append_nil _).symm, hschema, hall⟩
    | cons m' ms' => cases hexpand
  | cons m ms ih =>
    cases ms' with
    | nil => cases hexpand
    | cons m' ms' =>
      rw [List.map_cons, List.map_cons, List.cons.injEq] at hexpand
      obtain ⟨hm, hrest⟩ := List.forall_mem_cons.1 hms
      obtain ⟨hm', hrest'⟩ := List.forall_mem_cons.1 hms'
      obtain ⟨next, hnext, hmachines, hschema', hsound⟩ :=
        exists_growBehind hall hschema hm hexpand.1 hm'
      obtain ⟨after, hafter, hmachines', hkept⟩ := ih hsound hschema' hexpand.2 hrest hrest'
      refine ⟨after, ?_, ?_, hkept⟩
      · unfold Outcome.forEach
        rw [hnext]
        exact hafter
      · rw [hmachines', hmachines, List.append_assoc, List.singleton_append]

theorem growAll_eq (hsource : source.violation? = none) {ms' : List Machine}
    (hexpand : source.machines.map Machine.expand = ms'.map .ok)
    (hms' : ∀ m' ∈ ms', m'.Fits source.schema) : source.growAll =
      .done () (ofMachines source.schema ms' source.inputSymbols source.outputSymbols) := by
  obtain ⟨after, hafter, hmachines, hschema, hsound⟩ :=
    exists_forEach_growBehind source (violation?_empty source.schema) rfl hexpand
      (fits_of_violation?_eq_none hsource) hms'
  have hunits : after.machines = ms' := hmachines
  unfold growAll
  rw [hafter]
  dsimp only [Outcome.andThen]
  rw [eq_ofMachines hsound, hunits, hschema]
  rfl

/-- The expansion of sound tables can be grown edit by edit. No edit on the way is refused. -/
theorem becomeExpansion_eq_becomeGrown (hsource : source.violation? = none) (target : Automaton)
    (unit : Option Nat) : target.becomeExpansion source unit = target.becomeGrown source unit := by
  unfold becomeExpansion becomeGrown Outcome.ofExcept
  rw [(check_eq_ok_iff source).2 hsource]
  dsimp only
  cases unit with
  | none =>
    obtain ⟨ms', hexpand, hms', hall⟩ := exists_expand_none hsource
    rw [hall, growAll_eq hsource hexpand hms']
    rfl
  | some u =>
    cases hu : source.machines[u]? with
    | none =>
      rw [expand_badUnit hsource hu]
      dsimp only
      rw [hu]
    | some m =>
      have hm := fits_of_violation?_eq_none hsource m (List.mem_of_getElem? hu)
      obtain ⟨m', hexpand, -⟩ := hm.exists_expand
      rw [expand_some hsource hu hexpand]
      dsimp only
      rw [hu]
      dsimp only
      rw [growMachine_eq hm hexpand]
      rfl

end Automaton

end WeightedAutomata
