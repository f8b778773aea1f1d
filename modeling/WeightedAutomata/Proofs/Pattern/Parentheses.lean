-- The parentheses of a pattern. An opening parenthesis is left open when behind it no more are
-- closed than opened, however far one looks. The groups that are open after reading are just
-- those, from the inside out.
import Mathlib.Data.List.Induction
import WeightedAutomata.Pattern.Parser

namespace WeightedAutomata

namespace Pattern

/-! ## Counting parentheses -/

def openings (placed : List Placed) : Nat := placed.countP (·.token = .opening)

def closings (placed : List Placed) : Nat := placed.countP (·.token = .closing)

@[simp] theorem openings_nil : openings [] = 0 := rfl

@[simp] theorem closings_nil : closings [] = 0 := rfl

@[simp] theorem openings_append (placed later : List Placed) :
    openings (placed ++ later) = openings placed + openings later := List.countP_append

@[simp] theorem closings_append (placed later : List Placed) :
    closings (placed ++ later) = closings placed + closings later := List.countP_append

@[simp] theorem openings_cons_opening (p : Nat) (placed : List Placed) :
    openings (⟨p, .opening⟩ :: placed) = openings placed + 1 := by simp [openings]

@[simp] theorem closings_cons_opening (p : Nat) (placed : List Placed) :
    closings (⟨p, .opening⟩ :: placed) = closings placed := by simp [closings]

/-- However far one looks, no more parentheses are closed than opened. -/
def ClosesNoMore (placed : List Placed) : Prop :=
  ∀ part, part <+: placed → closings part ≤ openings part

theorem closesNoMore_iff_take (placed : List Placed) : ClosesNoMore placed ↔
    ∀ n < placed.length + 1, closings (placed.take n) ≤ openings (placed.take n) := by
  refine ⟨fun h n _ => h _ (List.take_prefix n placed), ?_⟩
  intro h part hpart
  rw [List.prefix_iff_eq_take.1 hpart]
  exact h _ (Nat.lt_succ_of_le hpart.length_le)

instance : DecidablePred ClosesNoMore := fun placed =>
  decidable_of_iff _ (closesNoMore_iff_take placed).symm

theorem closesNoMore_nil : ClosesNoMore [] := by
  intro part hpart
  rw [List.prefix_nil.1 hpart]
  exact Nat.le_refl _

theorem ClosesNoMore.le {placed : List Placed} (h : ClosesNoMore placed) :
    closings placed ≤ openings placed := h placed (List.prefix_refl placed)

theorem closesNoMore_concat (placed : List Placed) (x : Placed) :
    ClosesNoMore (placed ++ [x]) ↔
      ClosesNoMore placed ∧ closings (placed ++ [x]) ≤ openings (placed ++ [x]) := by
  refine ⟨?_, ?_⟩
  · intro h
    exact ⟨fun part hpart => h part (hpart.trans (List.prefix_append _ _)), h.le⟩
  · rintro ⟨h, hle⟩ part hpart
    rcases List.prefix_concat_iff.1 hpart with rfl | hpart
    · exact hle
    · exact h part hpart

/-! ## Parentheses that are left open -/

/-- The parenthesis at `p` is not closed. -/
def LeftOpen (placed : List Placed) (p : Nat) : Prop :=
  ∃ before after, placed = before ++ ⟨p, .opening⟩ :: after ∧ ClosesNoMore after

/-- The parenthesis at `p` is not closed, and `inner` of those behind it are not closed either. -/
def OpenAround (placed : List Placed) (inner p : Nat) : Prop :=
  ∃ before after, placed = before ++ ⟨p, .opening⟩ :: after ∧ ClosesNoMore after ∧
    openings after = closings after + inner

variable {placed : List Placed} {x : Placed} {inner p q : Nat}

theorem OpenAround.leftOpen (h : OpenAround placed inner p) : LeftOpen placed p := by
  obtain ⟨before, after, hplaced, hafter, -⟩ := h
  exact ⟨before, after, hplaced, hafter⟩

theorem LeftOpen.exists_openAround (h : LeftOpen placed p) :
    ∃ inner, OpenAround placed inner p := by
  obtain ⟨before, after, hplaced, hafter⟩ := h
  obtain ⟨inner, hinner⟩ := Nat.exists_eq_add_of_le hafter.le
  exact ⟨inner, before, after, hplaced, hafter, hinner⟩

/-- One token more opens a parenthesis, closes the innermost one, or does neither. -/
theorem openAround_concat (placed : List Placed) (x : Placed) (inner p : Nat) :
    OpenAround (placed ++ [x]) inner p ↔ (x = ⟨p, .opening⟩ ∧ inner = 0) ∨
      ∃ inner', OpenAround placed inner' p ∧ inner' + openings [x] = inner + closings [x] := by
  refine ⟨?_, ?_⟩
  · rintro ⟨before, after, hplaced, hafter, hcount⟩
    rcases List.eq_nil_or_concat after with rfl | ⟨after, y, rfl⟩
    · obtain ⟨-, hx⟩ := List.append_inj' hplaced rfl
      simp only [openings_nil, closings_nil] at hcount
      exact Or.inl ⟨List.singleton_inj.1 hx, by omega⟩
    · rw [List.concat_eq_append] at hplaced hafter hcount
      rw [← List.cons_append, ← List.append_assoc] at hplaced
      obtain ⟨hbefore, hx⟩ := List.append_inj' hplaced rfl
      obtain rfl := List.singleton_inj.1 hx
      have hafter := ((closesNoMore_concat after x).1 hafter).1
      obtain ⟨inner', hinner⟩ := Nat.exists_eq_add_of_le hafter.le
      refine Or.inr ⟨inner', ⟨before, after, hbefore, hafter, hinner⟩, ?_⟩
      simp only [openings_append, closings_append] at hcount
      omega
  · rintro (⟨rfl, rfl⟩ | ⟨inner', ⟨before, after, rfl, hafter, hinner⟩, hcount⟩)
    · exact ⟨placed, [], rfl, closesNoMore_nil, rfl⟩
    · refine ⟨before, after ++ [x], by simp, (closesNoMore_concat after x).2 ⟨hafter, ?_⟩, ?_⟩
      · simp only [openings_append, closings_append]
        omega
      · simp only [openings_append, closings_append]
        omega

/-- Where all parentheses behind one are closed, none that is left open stands behind it. -/
theorem OpenAround.le (h : OpenAround placed 0 p) (hq : LeftOpen placed q)
    (hordered : placed.Pairwise fun x y => x.position < y.position) : q ≤ p := by
  obtain ⟨before, after, rfl, hafter, hcount⟩ := h
  obtain ⟨before', after', heq, hafter'⟩ := hq
  rcases List.append_eq_append_iff.1 heq with ⟨middle, -, hmiddle⟩ | ⟨middle, rfl, hmiddle⟩
  · rcases List.cons_eq_append_iff.1 hmiddle with ⟨-, hsame⟩ | ⟨middle, rfl, rfl⟩
    · injection hsame with hsame
      injection hsame with hsame
      exact Nat.le_of_eq hsame
    · have hle := hafter middle (List.prefix_append _ _)
      have hle' := hafter'.le
      simp only [openings_append, openings_cons_opening, closings_append,
        closings_cons_opening] at hcount
      omega
  · rcases List.cons_eq_append_iff.1 hmiddle with ⟨-, hsame⟩ | ⟨middle, rfl, -⟩
    · injection hsame with hsame
      injection hsame with hsame
      exact Nat.le_of_eq hsame.symm
    · obtain ⟨-, -, hbefore⟩ := List.pairwise_append.1 hordered
      have hlt := hbefore ⟨q, .opening⟩ (by simp) ⟨p, .opening⟩ (by simp)
      exact Nat.le_of_lt hlt

/-! ## Open groups -/

theorem Reading.groups_read (r : Reading) (x : Placed) : (r.read x).groups =
    match x.token with
    | .opening => ⟨x.position, r.items⟩ :: r.groups
    | .closing => r.groups.tail
    | _ => r.groups := by
  obtain ⟨groups, items, quantifiable⟩ := r
  obtain ⟨position, token⟩ := x
  cases token with
  | opening => rfl
  | closing =>
    cases groups with
    | nil => rfl
    | cons group groups => rfl
  | atom a => rfl
  | quantifier q =>
    simp only [read]
    split
    · rfl
    · rfl

/-- The groups that are open after reading are those of the parentheses that are left open. -/
theorem position_groups (placed : List Placed) (inner p : Nat) :
    ((placed.foldl Reading.read {}).groups[inner]?.map (·.position)) = some p ↔
      OpenAround placed inner p := by
  induction placed using List.reverseRecOn generalizing inner p with
  | nil =>
    refine ⟨nofun, ?_⟩
    rintro ⟨before, after, hplaced, -⟩
    simp at hplaced
  | append_singleton placed x ih =>
    rw [List.foldl_append, List.foldl_cons, List.foldl_nil, Reading.groups_read,
      openAround_concat]
    obtain ⟨position, token⟩ := x
    cases token with
    | opening =>
      cases inner with
      | zero => simp [closings]
      | succ inner => simp [closings, ih]
    | closing => simp [openings, closings, ih]
    | atom a => simp [openings, closings, ih]
    | quantifier q => simp [openings, closings, ih]

theorem exists_finish_iff (placed : List Placed) :
    (∃ e, (placed.foldl Reading.read {}).finish = .ok e) ↔ ∀ p, ¬ LeftOpen placed p := by
  have hgroups := position_groups placed
  generalize placed.foldl Reading.read {} = r at *
  unfold Reading.finish
  cases hr : r.groups with
  | nil =>
    refine ⟨?_, fun _ => ⟨_, rfl⟩⟩
    intro _ p hp
    obtain ⟨inner, hinner⟩ := hp.exists_openAround
    rw [← hgroups, hr] at hinner
    cases hinner
  | cons group groups =>
    refine ⟨?_, ?_⟩
    · rintro ⟨e, h⟩
      cases h
    · intro h
      have hinnermost : OpenAround placed 0 group.position := by
        rw [← hgroups, hr]
        rfl
      exact absurd hinnermost.leftOpen (h group.position)

/-- What is reported is the last parenthesis that is left open. -/
theorem finish_eq_error_iff (hordered : placed.Pairwise fun x y => x.position < y.position)
    (p : Nat) : (placed.foldl Reading.read {}).finish = .error (.unmatchedParen p) ↔
      LeftOpen placed p ∧ ∀ q, LeftOpen placed q → q ≤ p := by
  have hgroups := position_groups placed
  generalize placed.foldl Reading.read {} = r at *
  unfold Reading.finish
  cases hr : r.groups with
  | nil =>
    refine ⟨nofun, ?_⟩
    rintro ⟨hp, -⟩
    obtain ⟨inner, hinner⟩ := hp.exists_openAround
    rw [← hgroups, hr] at hinner
    cases hinner
  | cons group groups =>
    have hinnermost : OpenAround placed 0 group.position := by
      rw [← hgroups, hr]
      rfl
    refine ⟨?_, ?_⟩
    · intro h
      cases h
      exact ⟨hinnermost.leftOpen, fun q hq => hinnermost.le hq hordered⟩
    · rintro ⟨hp, hlast⟩
      have hle := hlast _ hinnermost.leftOpen
      have hge := hinnermost.le hp hordered
      rw [Nat.le_antisymm hge hle]

end Pattern

end WeightedAutomata
