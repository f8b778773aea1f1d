-- The automaton of a pattern, assembled edit by edit. Each token adds its states and transitions
-- behind what is there, and the entry states of open groups are kept until they close. None of
-- these edits is refused, and what is assembled in the end is the automaton that is drawn.
import WeightedAutomata.Proofs.Edits
import WeightedAutomata.Proofs.Pattern.Composite

namespace WeightedAutomata

namespace Pattern

/-! ## Edits -/

def addArc (source target : Nat) (label : Label) (a : Automaton) : Outcome Unit :=
  (a.addTransition 0 { source, target, input := some label }).andThen fun _ after =>
    .done () after

/-- Adds a state with an arc to it, and tells the number of the state. -/
def addBranch (source : Nat) (label : Label) (a : Automaton) : Outcome Nat :=
  (a.insertStates 0 1 false).andThen fun target after =>
    (addArc source target label after).andThen fun _ after => .done target after

def addFan (source target : Nat) (codes : List Nat) (a : Automaton) : Outcome Unit :=
  Outcome.forEach (fun a code => addArc source target (.symbol code) a) a codes

/-- Adds a class behind an entry state, and tells its exit state. -/
def addClass (members : CharClass) (entry : Nat) (a : Automaton) : Outcome Nat :=
  (a.insertStates 0 1 false).andThen fun exit after =>
    if members.negated then
      (addBranch entry .notInSet after).andThen fun marker after =>
        (addFan marker exit members.codes after).andThen fun _ after => .done exit after
    else (addFan entry exit members.codes after).andThen fun _ after => .done exit after

/-- Adds an atom behind an entry state, and tells its exit state. -/
def addAtom (entry : Nat) (a : Automaton) : Atom → Outcome Nat
  | .char c => addBranch entry (.ofChar c) a
  | .any => addBranch entry .anyChar a
  | .oneOf members => addClass members entry a
  | .textStart => addBranch entry .startAnchor a
  | .textEnd => addBranch entry .endAnchor a

/-- Adds what a quantifier adds between two states, and tells the new exit state. -/
def addQuantifier (entry exit : Nat) (a : Automaton) : Quantifier → Outcome Nat
  | .star =>
    (addArc exit entry .epsilon a).andThen fun _ after => addBranch entry .epsilon after
  | .plus => (addArc exit entry .epsilon a).andThen fun _ after => .done exit after
  | .optional =>
    (addBranch exit .epsilon a).andThen fun bypass after =>
      (addArc entry bypass .epsilon after).andThen fun _ after => .done bypass after

/-! ## Assembling -/

/-- The state of assembling: the open groups from the inside out, each with its entry state and
its position, the entry state of the last item if that can still take a quantifier, and the
state that is reached. -/
structure Assembly where
  groups : List (Nat × Nat) := []
  entry : Option Nat := none
  state : Nat := 0

namespace Assembly

/-- Goes on behind an item that was added. -/
def behind (s : Assembly) (added : Outcome Nat) : Outcome Assembly :=
  added.andThen fun exit after => .done { s with entry := some s.state, state := exit } after

/-- Adds what one token stands for. -/
def take (s : Assembly) (placed : Placed) (a : Automaton) : Outcome Assembly :=
  match placed.token with
  | .atom atom => s.behind (addAtom s.state a atom)
  | .opening => .done ⟨(s.state, placed.position) :: s.groups, none, s.state⟩ a
  | .closing =>
    match s.groups with
    | [] => s.behind (addBranch s.state (.ofChar ')') a)
    | (entry, _) :: groups => .done ⟨groups, some entry, s.state⟩ a
  | .quantifier q =>
    match s.entry with
    | some entry =>
      (addQuantifier entry s.state a q).andThen fun exit after =>
        .done ⟨s.groups, none, exit⟩ after
    | none => s.behind (addBranch s.state (.ofChar q.char) a)

/-- Adds what the tokens of a pattern stand for, each once it is read to its end, and tells the
state that is reached. It is refused at the first token that does not end, and at the end of the
pattern if a group is left open. -/
def run (p : Nat) (s : Assembly) (cs : List Char) (a : Automaton) : Outcome Nat :=
  match cs with
  | [] =>
    match s.groups with
    | [] => .done s.state a
    | (_, position) :: _ => .refused (.pattern (.unmatchedParen position)) a
  | c :: rest =>
    match token p c rest with
    | .error error => .refused (.pattern error) a
    | .ok (t, read) =>
      (s.take ⟨p, t⟩ a).andThen fun next after => run (p + 1 + read) next (rest.drop read) after
termination_by cs.length
decreasing_by simp only [List.length_drop, List.length_cons]; omega

end Assembly

/-! ## The container of a draft -/

/-- A draft as the one unit of an acceptor. -/
def Draft.container (name : String) (d : Draft) : Automaton :=
  .ofMachines .acceptor
    [⟨name, List.replicate d.stateCount (Flags.ofFinal false), d.arcs.toList⟩]

section container

variable {name : String} {d : Draft} {source target entry exit : Nat}

theorem insertStates_container : (d.container name).insertStates 0 1 false =
    .done d.state.1 (d.state.2.container name) := by
  unfold Draft.container
  rw [Automaton.insertStates_ofMachines (List.getElem?_cons_zero) 1 false,
    List.replicate_append_replicate, List.length_replicate]
  rfl

theorem addArc_container (hsource : source < d.stateCount) (htarget : target < d.stateCount)
    (label : Label) : addArc source target label (d.container name) =
      .done () ((d.arc source target label).container name) := by
  unfold addArc Draft.container
  rw [Automaton.addTransition_ofMachines (List.getElem?_cons_zero)
    (hsource.trans_eq List.length_replicate.symm) (htarget.trans_eq List.length_replicate.symm) rfl,
    toList_arcs_arc]
  rfl

theorem addBranch_container (hsource : source < d.stateCount) (label : Label) :
    addBranch source label (d.container name) =
      .done (d.branch source label).1 ((d.branch source label).2.container name) := by
  unfold addBranch
  rw [insertStates_container]
  dsimp only [Outcome.andThen]
  rw [addArc_container (Nat.lt_succ_of_lt hsource) (Nat.lt_succ_self _)]
  rfl

theorem addFan_container (hsource : source < d.stateCount) (htarget : target < d.stateCount)
    (codes : List Nat) : addFan source target codes (d.container name) =
      .done () ((d.fan source target codes).container name) := by
  unfold addFan
  induction codes generalizing d with
  | nil => rfl
  | cons code codes ih =>
    rw [Outcome.forEach, addArc_container hsource htarget]
    exact ih hsource htarget

theorem addClass_container (hentry : entry < d.stateCount) (members : CharClass) :
    addClass members entry (d.container name) =
      .done (members.draw entry d).1 ((members.draw entry d).2.container name) := by
  unfold addClass CharClass.draw
  rw [insertStates_container]
  dsimp only [Outcome.andThen]
  have hexit : d.state.1 < d.state.2.stateCount := Nat.lt_succ_self _
  have hentry : entry < d.state.2.stateCount := Nat.lt_succ_of_lt hentry
  cases members.negated with
  | false =>
    rw [if_neg Bool.false_ne_true, addFan_container hentry hexit]
    rfl
  | true =>
    rw [if_pos rfl, addBranch_container hentry]
    dsimp only [Outcome.andThen]
    rw [addFan_container (Nat.lt_succ_self _) (Nat.lt_succ_of_lt hexit)]
    rfl

theorem addAtom_container (hentry : entry < d.stateCount) (a : Atom) :
    addAtom entry (d.container name) a =
      .done (a.draw entry d).1 ((a.draw entry d).2.container name) := by
  cases a with
  | char | any | textStart | textEnd => exact addBranch_container hentry _
  | oneOf members => exact addClass_container hentry members

theorem addQuantifier_container (hentry : entry < d.stateCount) (hexit : exit < d.stateCount)
    (q : Quantifier) : addQuantifier entry exit (d.container name) q =
      .done (q.draw entry exit d).1 ((q.draw entry exit d).2.container name) := by
  cases q with
  | star =>
    unfold addQuantifier
    rw [addArc_container hexit hentry]
    exact addBranch_container (d := d.arc exit entry .epsilon) hentry _
  | plus =>
    unfold addQuantifier
    rw [addArc_container hexit hentry]
    rfl
  | optional =>
    unfold addQuantifier
    rw [addBranch_container hexit]
    dsimp only [Outcome.andThen]
    rw [addArc_container (Nat.lt_succ_of_lt hentry) (Nat.lt_succ_self _)]
    rfl

theorem setFinal_container {e : Expr} (hdraw : e.draw 0 Draft.start = (exit, d)) :
    (d.container name).setFinal 0 exit true =
      .done () (.ofMachines .acceptor [e.machine name]) := by
  have hexit := e.exit_lt (d := Draft.start) Nat.one_pos
  rw [hdraw] at hexit
  unfold Draft.container
  rw [Automaton.setFinal_ofMachines (List.getElem?_cons_zero)
    (hexit.trans_eq List.length_replicate.symm)]
  unfold Expr.machine
  rw [hdraw, List.set_cons_zero]
  dsimp only
  rw [List.modify_eq_set, List.getElem?_replicate, if_pos hexit]
  rfl

end container

/-! ## What is drawn while reading -/

theorem draw_foldl_seq (items : List Expr) (last : Expr) (entry : Nat) (d : Draft) :
    (items.foldl (fun rest e => .seq e rest) last).draw entry d =
      last.draw ((Expr.ofReversed items).draw entry d).1
        ((Expr.ofReversed items).draw entry d).2 := by
  induction items generalizing last with
  | nil => rfl
  | cons e items ih =>
    have hitems : (Expr.ofReversed (e :: items)).draw entry d = _ := ih (.seq e .empty)
    rw [List.foldl_cons, ih, hitems]
    rfl

/-- Items, given last first, are drawn one behind the other. -/
theorem draw_ofReversed_cons (e : Expr) (items : List Expr) (entry : Nat) (d : Draft) :
    (Expr.ofReversed (e :: items)).draw entry d =
      e.draw ((Expr.ofReversed items).draw entry d).1 ((Expr.ofReversed items).draw entry d).2 :=
  draw_foldl_seq items (.seq e .empty) entry d

/-- What is drawn up to the opening of the innermost open group. -/
def drawnBefore : List OpenGroup → Nat × Draft
  | [] => (0, Draft.start)
  | group :: groups =>
    (Expr.ofReversed group.before).draw (drawnBefore groups).1 (drawnBefore groups).2

/-- What is drawn of open groups and items. -/
def drawnOf (groups : List OpenGroup) (items : List Expr) : Nat × Draft :=
  (Expr.ofReversed items).draw (drawnBefore groups).1 (drawnBefore groups).2

theorem drawnOf_cons (groups : List OpenGroup) (e : Expr) (items : List Expr) :
    drawnOf groups (e :: items) =
      e.draw (drawnOf groups items).1 (drawnOf groups items).2 :=
  draw_ofReversed_cons e items _ _

/-- Where a group closes, its items stay where they were drawn. -/
theorem drawnOf_closed (group : OpenGroup) (groups : List OpenGroup) (items : List Expr) :
    drawnOf groups (Expr.ofReversed items :: group.before) = drawnOf (group :: groups) items :=
  drawnOf_cons groups _ _

/-- The arcs of a quantifier are drawn around the last item. -/
theorem drawnOf_quantified (groups : List OpenGroup) (q : Quantifier) (e : Expr)
    (items : List Expr) : drawnOf groups (.quantified q e :: items) =
      q.draw (drawnOf groups items).1 (drawnOf groups (e :: items)).1
        (drawnOf groups (e :: items)).2 := by
  rw [drawnOf_cons, drawnOf_cons]
  rfl

theorem drawnBefore_lt (groups : List OpenGroup) :
    (drawnBefore groups).1 < (drawnBefore groups).2.stateCount := by
  induction groups with
  | nil => exact Nat.one_pos
  | cons group groups ih => exact Expr.exit_lt _ ih

theorem drawnOf_lt (groups : List OpenGroup) (items : List Expr) :
    (drawnOf groups items).1 < (drawnOf groups items).2.stateCount :=
  Expr.exit_lt _ (drawnBefore_lt groups)

/-- The entry states and the positions of open groups. -/
def entriesOf : List OpenGroup → List (Nat × Nat)
  | [] => []
  | group :: groups => ((drawnOf groups group.before).1, group.position) :: entriesOf groups

namespace Reading

def drawn (r : Reading) : Nat × Draft := drawnOf r.groups r.items

/-- Where assembling stands when a pattern is read so far. -/
def assembly (r : Reading) : Assembly where
  groups := entriesOf r.groups
  entry :=
    match r.quantifiable, r.items with
    | true, _ :: before => some (drawnOf r.groups before).1
    | _, _ => none
  state := r.drawn.1

variable {name : String}

/-- An atom that is added is drawn behind the last item. -/
theorem behind_addAtom (r : Reading) (a : Atom) :
    r.assembly.behind (addAtom r.drawn.1 (r.drawn.2.container name) a) =
      .done (r.add (.atom a)).assembly ((r.add (.atom a)).drawn.2.container name) := by
  have hstate : r.drawn.1 < r.drawn.2.stateCount := drawnOf_lt r.groups r.items
  have hdrawn : (r.add (.atom a)).drawn = a.draw r.drawn.1 r.drawn.2 :=
    drawnOf_cons r.groups (.atom a) r.items
  rw [addAtom_container hstate, hdrawn]
  unfold Assembly.behind Outcome.andThen assembly
  rw [hdrawn]
  rfl

/-- Assembling goes along with reading. -/
theorem take_assembly (r : Reading) (x : Placed) :
    r.assembly.take x (r.drawn.2.container name) =
      .done (r.read x).assembly ((r.read x).drawn.2.container name) := by
  obtain ⟨position, token⟩ := x
  obtain ⟨groups, items, quantifiable⟩ := r
  cases token with
  | atom a => exact behind_addAtom _ a
  | opening => rfl
  | closing =>
    cases groups with
    | nil => exact behind_addAtom ⟨[], items, quantifiable⟩ (.char ')')
    | cons group groups =>
      -- The items of the group stay where they are, and its entry state is the one kept.
      simp only [Assembly.take, read, add, assembly, drawn, entriesOf, drawnOf_closed]
  | quantifier q =>
    cases quantifiable with
    | false => exact behind_addAtom ⟨groups, items, false⟩ (.char q.char)
    | true =>
      cases items with
      | nil => exact behind_addAtom ⟨groups, [], true⟩ (.char q.char)
      | cons e items =>
        have hbefore := drawnOf_lt groups items
        have hgrows := e.stateCount_le_draw hbefore
        have hexit := e.exit_lt hbefore
        rw [← drawnOf_cons] at hgrows hexit
        simp only [Assembly.take, read, assembly, drawn, drawnOf_quantified]
        rw [addQuantifier_container (Nat.lt_of_lt_of_le hbefore hgrows) hexit]
        rfl

/-! ## Runs -/

/-- At the end of a pattern it is told whether a group is left open. -/
theorem run_nil (r : Reading) (p : Nat) (a : Automaton) : r.assembly.run p [] a =
    match r.finish with
    | .ok _ => .done r.drawn.1 a
    | .error error => .refused (.pattern error) a := by
  unfold Assembly.run assembly finish
  cases r.groups with
  | nil => rfl
  | cons group groups => rfl

theorem run_cons (r : Reading) {p read : Nat} {c : Char} {rest : List Char} {t : Token}
    (h : token p c rest = .ok (t, read)) :
    r.assembly.run p (c :: rest) (r.drawn.2.container name) =
      (r.read ⟨p, t⟩).assembly.run (p + 1 + read) (rest.drop read)
        ((r.read ⟨p, t⟩).drawn.2.container name) := by
  rw [Assembly.run, h]
  dsimp only
  rw [take_assembly]
  rfl

/-- What assembling tokens behind a reading comes to: their expression is drawn, or the reason is
told why there is none. -/
def Assembles (name : String) (r : Reading) (o : Outcome Nat) :
    Except PatternError (List Placed) → Prop
  | .error error => ∃ after, o = .refused (.pattern error) after
  | .ok placed => o =
    match (placed.foldl read r).finish with
    | .ok _ => .done (placed.foldl read r).drawn.1 ((placed.foldl read r).drawn.2.container name)
    | .error error => .refused (.pattern error) ((placed.foldl read r).drawn.2.container name)

theorem assembles_run (name : String) (r : Reading) (p : Nat) (cs : List Char) :
    r.Assembles name (r.assembly.run p cs (r.drawn.2.container name)) (tokens p cs) := by
  induction p, cs using tokens.induct generalizing r with
  | case1 p =>
    rw [tokens]
    exact r.run_nil p _
  | case2 p c rest error htoken =>
    rw [Assembly.run, tokens, htoken]
    exact ⟨_, rfl⟩
  | case3 p c rest t read htoken error hlater ih =>
    have hrest := ih (r.read ⟨p, t⟩)
    rw [hlater] at hrest
    rw [run_cons r htoken, tokens, htoken]
    dsimp only
    rw [hlater]
    exact hrest
  | case4 p c rest t read htoken later hlater ih =>
    have hrest := ih (r.read ⟨p, t⟩)
    rw [hlater] at hrest
    rw [run_cons r htoken, tokens, htoken]
    dsimp only
    rw [hlater]
    exact hrest

end Reading

end Pattern

namespace Automaton

open Pattern

/-- Replaces whatever there was by the acceptor of a pattern, which is assembled edit by edit.
Where that is refused, an acceptor without units is left. -/
def assemblePattern (_ : Automaton) (pattern : String) : Outcome Unit :=
  let unit := ((empty .acceptor).addUnit ("Regex: " ++ pattern)).2
  (unit.insertStates 0 1 false).andThen fun _ after =>
    match Assembly.run 0 {} pattern.toList after with
    | .done last after => after.setFinal 0 last true
    | .refused error _ => .refused error (empty .acceptor)
    | .broken fault => .broken fault

/-- What is assembled is what is drawn, and the same patterns are refused for the same reason. No
edit on the way is refused. -/
theorem assemblePattern_eq (a : Automaton) (pattern : String) :
    a.assemblePattern pattern = a.compilePattern pattern := by
  have hstart : ((empty .acceptor).addUnit ("Regex: " ++ pattern)).2.insertStates 0 1 false =
      .done 0 (Draft.start.container ("Regex: " ++ pattern)) := by
    have hunit : ((empty .acceptor).addUnit ("Regex: " ++ pattern)).2 =
        ofMachines .acceptor [⟨"Regex: " ++ pattern, [], []⟩] := rfl
    rw [hunit, insertStates_ofMachines (List.getElem?_cons_zero)]
    rfl
  have hrun : Reading.Assembles ("Regex: " ++ pattern) {}
      (Assembly.run 0 {} pattern.toList (Draft.start.container ("Regex: " ++ pattern)))
      (tokens 0 pattern.toList) := Reading.assembles_run _ {} 0 _
  unfold assemblePattern compilePattern ofPattern parse
  dsimp only
  rw [hstart]
  dsimp only [Outcome.andThen]
  cases htokens : tokens 0 pattern.toList with
  | error error =>
    rw [htokens] at hrun
    obtain ⟨after, hafter⟩ := hrun
    rw [hafter]
  | ok placed =>
    rw [htokens, Reading.Assembles] at hrun
    rw [hrun]
    dsimp only
    generalize placed.foldl Reading.read {} = r
    obtain ⟨groups, items, quantifiable⟩ := r
    cases groups with
    | nil => exact setFinal_container rfl
    | cons group groups => rfl

end Automaton

end WeightedAutomata
