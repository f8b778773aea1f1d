-- The grammar of patterns. It says which expression the tokens of a pattern write, and reading
-- a pattern finds just that expression. While a group is open, the tokens before it and those in
-- it write items of their own, and where it closes they come together.
import WeightedAutomata.Pattern.Parser
import WeightedAutomata.Proofs.Pattern.Lexing

namespace WeightedAutomata

namespace Pattern

/-! ## Items -/

/-- Tokens write items, which are given last first. The first flag tells that a group is open
around them, and the second that the last item can take a quantifier. A quantifier with no
item to take stands for its character, and so does a closing parenthesis outside of groups. -/
inductive Items : Bool → List Token → List Expr → Bool → Prop
  | nothing (inGroup : Bool) : Items inGroup [] [] false
  | atom {inGroup free : Bool} {ts : List Token} {items : List Expr} (a : Atom) :
      Items inGroup ts items free → Items inGroup (ts ++ [.atom a]) (.atom a :: items) true
  | parenthesis {free : Bool} {ts : List Token} {items : List Expr} :
      Items false ts items free → Items false (ts ++ [.closing]) (.atom (.char ')') :: items) true
  | group {inGroup free innerFree : Bool} {ts inner : List Token} {items innerItems : List Expr} :
      Items inGroup ts items free → Items true inner innerItems innerFree →
      Items inGroup (ts ++ .opening :: (inner ++ [.closing])) (Expr.ofReversed innerItems :: items)
        true
  | sign {inGroup : Bool} {ts : List Token} {items : List Expr} (q : Quantifier) :
      Items inGroup ts items false →
      Items inGroup (ts ++ [.quantifier q]) (.atom (.char q.char) :: items) true
  | quantified {inGroup : Bool} {ts : List Token} {e : Expr} {items : List Expr} (q : Quantifier) :
      Items inGroup ts (e :: items) true →
      Items inGroup (ts ++ [.quantifier q]) (.quantified q e :: items) false

/-- The expression that a pattern writes: all of it is scanned, and the tokens write the items. -/
def Spells (pattern : List Char) (e : Expr) : Prop :=
  ∃ placed items free, Scanned pattern placed [] ∧
    Items false (placed.map (·.token)) items free ∧ e = Expr.ofReversed items

theorem Items.ne_nil {inGroup : Bool} {ts : List Token} {items : List Expr}
    (h : Items inGroup ts items true) : items ≠ [] := by
  cases h with
  | atom | parenthesis | group | sign => exact List.cons_ne_nil _ _

/-! ## What was read writes items -/

/-- Tokens up to the opening of the innermost open group, given from the inside out. -/
inductive Opened : List Token → List OpenGroup → Prop
  | outermost : Opened [] []
  | inside {ts own : List Token} {groups : List OpenGroup} {items : List Expr} {free : Bool}
      (position : Nat) : Opened ts groups → Items (!groups.isEmpty) own items free →
      Opened (ts ++ own ++ [.opening]) (⟨position, items⟩ :: groups)

/-- The tokens read so far: those up to the innermost open group, and those that write its
items. -/
def Reading.Of (ts : List Token) (r : Reading) : Prop :=
  ∃ outer own, ts = outer ++ own ∧ Opened outer r.groups ∧
    Items (!r.groups.isEmpty) own r.items r.quantifiable

theorem Reading.of_read {ts : List Token} {r : Reading} (h : r.Of ts) (placed : Placed) :
    (r.read placed).Of (ts ++ [placed.token]) := by
  obtain ⟨outer, own, rfl, hopened, hitems⟩ := h
  obtain ⟨position, token⟩ := placed
  obtain ⟨groups, items, free⟩ := r
  rw [List.append_assoc]
  cases token with
  | atom a =>
    refine ⟨outer, own ++ [.atom a], rfl, hopened, ?_⟩
    exact Items.atom a hitems
  | opening =>
    refine ⟨outer ++ own ++ [.opening], [], ?_, .inside position hopened hitems, .nothing _⟩
    simp only [List.append_assoc, List.append_nil]
  | closing =>
    cases hopened with
    | outermost =>
      refine ⟨[], own ++ [.closing], rfl, .outermost, ?_⟩
      exact Items.parenthesis hitems
    | @inside ts before groups beforeItems beforeFree _ hopened hbefore =>
      refine ⟨ts, before ++ .opening :: (own ++ [.closing]), ?_, hopened, ?_⟩
      · simp only [List.append_assoc, List.cons_append, List.nil_append]
      · exact Items.group hbefore hitems
  | quantifier q =>
    refine ⟨outer, own ++ [.quantifier q], rfl, ?_⟩
    cases free with
    | false => exact ⟨hopened, .sign q hitems⟩
    | true =>
      cases items with
      | nil => exact absurd rfl hitems.ne_nil
      | cons e items => exact ⟨hopened, .quantified q hitems⟩

theorem Reading.of_foldl (placed : List Placed) {ts : List Token} {r : Reading} (h : r.Of ts) :
    (placed.foldl Reading.read r).Of (ts ++ placed.map (·.token)) := by
  induction placed generalizing ts r with
  | nil => simpa using h
  | cons p placed ih =>
    have hread := ih (Reading.of_read h p)
    rw [List.append_assoc] at hread
    exact hread

/-! ## Items are what is read -/

/-- From the opening of a group on, reading tokens that write items gives the items. -/
theorem Items.foldl_read {inGroup free : Bool} {ts : List Token} {items : List Expr}
    (h : Items inGroup ts items free) {placed : List Placed} {groups : List OpenGroup}
    (hplaced : placed.map (·.token) = ts) (hgroups : inGroup = !groups.isEmpty) :
    placed.foldl Reading.read ⟨groups, [], false⟩ = ⟨groups, items, free⟩ := by
  induction h generalizing placed groups with
  | nothing =>
    rw [List.map_eq_nil_iff] at hplaced
    rw [hplaced]
    rfl
  | atom a _ ih =>
    obtain ⟨before, last, rfl, hbefore, hlast⟩ := List.map_eq_append_iff.1 hplaced
    obtain ⟨p, rfl, hp⟩ := List.map_eq_singleton_iff.1 hlast
    rw [List.foldl_append, ih hbefore hgroups, List.foldl_cons, List.foldl_nil, Reading.read, hp]
    rfl
  | parenthesis _ ih =>
    obtain ⟨before, last, rfl, hbefore, hlast⟩ := List.map_eq_append_iff.1 hplaced
    obtain ⟨p, rfl, hp⟩ := List.map_eq_singleton_iff.1 hlast
    obtain rfl : groups = [] := by simpa using hgroups
    rw [List.foldl_append, ih hbefore hgroups, List.foldl_cons, List.foldl_nil, Reading.read, hp]
    rfl
  | group _ _ ih ihInner =>
    obtain ⟨before, rest, rfl, hbefore, hrest⟩ := List.map_eq_append_iff.1 hplaced
    obtain ⟨p, rest, rfl, hp, hrest⟩ := List.map_eq_cons_iff.1 hrest
    obtain ⟨inner, last, rfl, hinner, hlast⟩ := List.map_eq_append_iff.1 hrest
    obtain ⟨p', rfl, hp'⟩ := List.map_eq_singleton_iff.1 hlast
    rw [List.foldl_append, ih hbefore hgroups, List.foldl_cons, Reading.read, hp]
    dsimp only
    rw [List.foldl_append, ihInner hinner rfl, List.foldl_cons, List.foldl_nil, Reading.read, hp']
    rfl
  | sign q _ ih =>
    obtain ⟨before, last, rfl, hbefore, hlast⟩ := List.map_eq_append_iff.1 hplaced
    obtain ⟨p, rfl, hp⟩ := List.map_eq_singleton_iff.1 hlast
    rw [List.foldl_append, ih hbefore hgroups, List.foldl_cons, List.foldl_nil, Reading.read, hp]
    rfl
  | quantified q _ ih =>
    obtain ⟨before, last, rfl, hbefore, hlast⟩ := List.map_eq_append_iff.1 hplaced
    obtain ⟨p, rfl, hp⟩ := List.map_eq_singleton_iff.1 hlast
    rw [List.foldl_append, ih hbefore hgroups, List.foldl_cons, List.foldl_nil, Reading.read, hp]

/-- Reading a pattern gives the expression that it writes, and nothing where it writes none. -/
theorem parse_eq_ok_iff (pattern : List Char) (e : Expr) :
    parse pattern = .ok e ↔ Spells pattern e := by
  unfold parse Spells
  simp only [← tokens_eq_ok_iff]
  cases htokens : tokens 0 pattern with
  | error error => simp
  | ok placed =>
    have hof : (placed.foldl Reading.read {}).Of ([] ++ placed.map (·.token)) :=
      Reading.of_foldl placed ⟨[], [], rfl, .outermost, .nothing _⟩
    rw [List.nil_append] at hof
    refine ⟨?_, ?_⟩
    · intro h
      dsimp only at h
      obtain ⟨outer, own, htokens, hopened, hitems⟩ := hof
      generalize placed.foldl Reading.read {} = r at *
      obtain ⟨groups, items, free⟩ := r
      cases hopened with
      | inside => cases h
      | outermost =>
        cases h
        exact ⟨placed, items, free, rfl, htokens ▸ hitems, rfl⟩
    · intro h
      rcases h with ⟨placed', items, free, hplaced, hitems, rfl⟩
      cases hplaced
      have hread : placed.foldl Reading.read {} = ⟨[], items, free⟩ := hitems.foldl_read rfl rfl
      dsimp only
      rw [hread]
      rfl

end Pattern

end WeightedAutomata
