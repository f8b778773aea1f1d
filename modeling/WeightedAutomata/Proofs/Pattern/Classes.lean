-- Classes match the characters that they list. The arcs drawn for a class stay together in the
-- automaton of a pattern, and the rest of the pattern leaves them alone. So a search that goes
-- from the entry of a class along its arcs reads one character, and only one that the class reads.
import Mathlib.Data.List.Nodup
import WeightedAutomata.Proofs.Pattern.Acceptance
import WeightedAutomata.Proofs.Pattern.Lexing
import WeightedAutomata.Proofs.Pattern.Live

namespace WeightedAutomata

open Relation

namespace Pattern

/-! ## Ranges -/

/-- One turn of the loop over a range, towards `stop`. -/
def toward (stop code : Nat) : Nat := if stop < code then code - 1 else code + 1

/-- The loop over a range comes to `stop` from a number on, and goes through these on the way. -/
inductive Loops (stop : Nat) : Nat → List Nat → Prop
  | arrived : Loops stop stop []
  | onward {code : Nat} {codes : List Nat} : code ≠ stop → Loops stop (toward stop code) codes →
      Loops stop code (code :: codes)

theorem walk_up (start n : Nat) : walk start (start + n) = (List.range n).map (start + ·) := by
  unfold walk
  rw [Nat.add_sub_cancel_left, Nat.sub_add_eq, Nat.sub_self, Nat.zero_sub]
  split
  · obtain rfl : n = 0 := by omega
    rfl
  · rfl

theorem walk_down (stop n : Nat) :
    walk (stop + n) stop = (List.range n).map (stop + n - ·) := by
  unfold walk
  rw [if_pos (Nat.le_add_right _ _), Nat.add_sub_cancel_left]

theorem walk_of_ne {start stop : Nat} (h : start ≠ stop) :
    walk start stop = start :: walk (toward stop start) stop := by
  unfold toward
  rcases Nat.lt_or_gt_of_ne h with hlt | hlt
  · rw [if_neg (Nat.lt_asymm hlt)]
    obtain ⟨n, rfl⟩ := Nat.exists_eq_add_of_lt hlt
    have hnext := walk_up (start + 1) n
    rw [Nat.add_right_comm] at hnext
    rw [hnext, Nat.add_assoc start, walk_up, List.range_succ_eq_map, List.map_cons, List.map_map]
    simp only [Function.comp_def, Nat.add_zero, Nat.succ_eq_add_one, Nat.add_assoc, Nat.add_comm 1]
  · rw [if_pos hlt]
    obtain ⟨n, rfl⟩ := Nat.exists_eq_add_of_lt hlt
    rw [Nat.add_sub_cancel, walk_down, Nat.add_assoc stop, walk_down, List.range_succ_eq_map,
      List.map_cons, List.map_map]
    simp only [Function.comp_def, Nat.sub_zero, Nat.succ_eq_add_one, ← Nat.add_assoc,
      Nat.add_sub_add_right]

/-- The loop over a range ends from wherever it starts. -/
theorem loops_walk (start stop : Nat) : Loops stop start (walk start stop) := by
  induction hdistance : (start - stop) + (stop - start) using Nat.strongRecOn
    generalizing start with
  | ind n ih =>
    by_cases h : start = stop
    · have hnone : walk stop stop = [] := walk_up stop 0
      rw [h, hnone]
      exact .arrived
    · rw [walk_of_ne h]
      refine .onward h (ih _ ?_ _ rfl)
      unfold toward
      split <;> omega

theorem nodup_walk (start stop : Nat) : (walk start stop).Nodup := by
  unfold walk
  split
  · refine List.nodup_range.map_on ?_
    intro i hi j hj
    rw [List.mem_range] at hi hj
    omega
  · exact List.nodup_range.map fun _ _ => Nat.add_left_cancel

/-- A range has one arc for each number between its two ends, and no other arc. -/
theorem ClassItem.countP_fanArcs_range (first last : Char) (source target code : Nat) :
    (fanArcs source target (range first last).codes).countP
        (fun t => decide (t.inputLabel = .symbol code)) =
      if min first.toNat last.toNat ≤ code ∧ code ≤ max first.toNat last.toNat then 1 else 0 := by
  have hnodup : (range first last).codes.Nodup := by
    refine List.nodup_cons.2 ⟨?_, nodup_walk _ _⟩
    rw [mem_walk]
    omega
  have hmem : code ∈ (range first last).codes ↔
      min first.toNat last.toNat ≤ code ∧ code ≤ max first.toNat last.toNat := by
    simp only [codes, List.mem_cons, mem_walk]
    omega
  have hcount : (fanArcs source target (range first last).codes).countP
      (fun t => decide (t.inputLabel = .symbol code)) = (range first last).codes.count code := by
    rw [fanArcs, List.countP_map, List.count]
    refine List.countP_congr fun number _ => ?_
    simp [Transition.inputLabel]
  rw [hcount, hnodup.count]
  simp only [hmem]

/-! ## How classes are written -/

/-- Text before `rest` that is a class: one in brackets, or a letter behind a backslash. -/
inductive ClassWord : List Char → CharClass → List Char → Prop
  | bracket {words rest : List Char} {members : CharClass} :
      Body words members rest → ClassWord ('[' :: words) members rest
  | shorthand {c : Char} {body : String} {members : CharClass} (rest : List Char) :
      (c, body) ∈ shorthandBodies → Body (body.toList ++ [']']) members [] →
      ClassWord ['\\', c] members rest

theorem Token.ofChar_ne_class (c : Char) (members : CharClass) :
    Token.ofChar c ≠ .atom (.oneOf members) := by
  fun_cases Token.ofChar c <;> rintro ⟨⟩

/-- These are all the words that a class is the token of. -/
theorem classWord_iff {word rest : List Char} {members : CharClass} :
    ClassWord word members rest ↔ Word word (.atom (.oneOf members)) rest := by
  refine ⟨?_, ?_⟩
  · intro h
    cases h with
    | bracket hbody => exact .bracket hbody
    | shorthand rest hletter hbody => exact .shorthand rest hletter hbody
  · intro h
    generalize htoken : Token.atom (.oneOf members) = t at h
    cases h with
    | @char c => exact absurd htoken.symm (Token.ofChar_ne_class c members)
    | escape => cases htoken
    | shorthand rest hletter hbody =>
      cases htoken
      exact .shorthand rest hletter hbody
    | bracket hbody =>
      cases htoken
      exact .bracket hbody

/-! ## Where a class is drawn -/

/-- The state that is reached behind tokens, and what is drawn of them. -/
def drawnFrom (placed : List Placed) : Nat × Draft := (placed.foldl Reading.read {}).drawn

/-- What is drawn of the tokens of a pattern is what is drawn of its expression. -/
theorem exists_drawnFrom {pattern : List Char} {e : Expr} (h : Spells pattern e) :
    ∃ placed, tokens 0 pattern = .ok placed ∧ e.draw 0 Draft.start = drawnFrom placed := by
  obtain ⟨placed, items, free, hscanned, hitems, rfl⟩ := h
  have hread : placed.foldl Reading.read {} = ⟨[], items, free⟩ := hitems.foldl_read rfl rfl
  refine ⟨placed, (tokens_eq_ok_iff _ _).2 hscanned, ?_⟩
  rw [drawnFrom, hread]
  rfl

theorem Scanned.exists_later {text word rest : List Char} {before placed : List Placed} {t : Token}
    (h : Scanned text before (word ++ rest)) (hword : Word word t rest)
    (htokens : tokens 0 (text ++ (word ++ rest)) = .ok placed) :
    ∃ later, placed = before ++ ⟨text.length, t⟩ :: later := by
  rw [h.tokens_eq, tokens_word hword] at htokens
  cases hlater : tokens (text.length + word.length) rest with
  | error error =>
    rw [hlater] at htokens
    cases htokens
  | ok later =>
    rw [hlater] at htokens
    cases htokens
    exact ⟨later, rfl⟩

theorem CharClass.inputLabel_of_mem_arcs {members : CharClass} {entry n : Nat} {t : Transition}
    (ht : t ∈ members.arcs entry n) :
    t.inputLabel = .notInSet ∨ ∃ code, t.inputLabel = .symbol code := by
  rcases (mem_arcs ht).2 with ⟨-, -, hcode⟩ | ⟨-, -, -, hset⟩
  · exact Or.inr hcode
  · exact Or.inl hset

/-! ## The marker of a class -/

section marker

variable {r : Reading} {members : CharClass}

/-- The arcs of a class are added to what was drawn before it, and its exit is the first new
state. -/
theorem Reading.drawn_add_class (r : Reading) (members : CharClass) :
    (r.add (.atom (.oneOf members))).drawn.1 = r.drawn.2.stateCount ∧
      (r.add (.atom (.oneOf members))).drawn.2.stateCount =
        r.drawn.2.stateCount + (if members.negated then 2 else 1) ∧
      (r.add (.atom (.oneOf members))).drawn.2.arcs.toList =
        r.drawn.2.arcs.toList ++ members.arcs r.drawn.1 r.drawn.2.stateCount := by
  rw [r.drawn_add_atom]
  exact members.draw_eq r.drawn.1 r.drawn.2

/-- Behind a negated class its marker is neither live nor new. -/
theorem Reading.Bounded.marker (h : r.Bounded) (hnegated : members.negated = true) (n : Nat) :
    ¬ (r.add (.atom (.oneOf members))).LiveOrNew n (r.drawn.2.stateCount + 1) := by
  obtain ⟨hexit, hcount, -⟩ := r.drawn_add_class members
  rw [if_pos hnegated] at hcount
  rintro (hlive | ⟨hnew, -⟩)
  · rcases live_add_atom hlive with hstate | hlive
    · omega
    · have := h.live _ hlive
      omega
  · omega

end marker

/-- Tokens lead to the exit of the class that is the last of them, behind its arcs. -/
theorem drawnFrom_class (before : List Placed) (position : Nat) (members : CharClass) :
    (drawnFrom (before ++ [⟨position, .atom (.oneOf members)⟩])).1 =
        (drawnFrom before).2.stateCount ∧
      (drawnFrom (before ++ [⟨position, .atom (.oneOf members)⟩])).2.arcs.toList =
        (drawnFrom before).2.arcs.toList ++
          members.arcs (drawnFrom before).1 (drawnFrom before).2.stateCount := by
  obtain ⟨hexit, -, harcs⟩ := (before.foldl Reading.read {}).drawn_add_class members
  unfold drawnFrom
  rw [List.foldl_append]
  exact ⟨hexit, harcs⟩

end Pattern

namespace Machine

open Pattern

/-! ## A class in a machine -/

/-- The arcs of a class stand among the transitions of a machine, behind `earlier` ones. No other
transition leaves its marker, and the marker is not final. The states from `n` on were new for the
class. -/
structure HasClass (m : Machine) (earlier : List Transition) (members : CharClass)
    (entry n : Nat) : Prop where
  entry_lt : entry < n
  source_lt : ∀ t ∈ earlier, t.source < n
  among : ∃ later, m.transitions = earlier ++ (members.arcs entry n ++ later) ∧
    (members.negated = true → ∀ t ∈ later, t.source ≠ n + 1)
  not_final : members.negated = true → ¬ m.IsFinal (n + 1)

variable {m : Machine} {earlier : List Transition} {members : CharClass} {entry n : Nat}
  {text : List Char} {t : Transition}

theorem HasClass.leaving_marker (h : m.HasClass earlier members entry n)
    (hnegated : members.negated = true) :
    m.leaving (n + 1) = (ofArcs (members.arcs entry n)).leaving (n + 1) := by
  obtain ⟨later, htransitions, hlater⟩ := h.among
  have hother : ∀ t ∈ earlier, t.source ≠ n + 1 := by
    intro t ht
    have := h.source_lt t ht
    omega
  have hm : m.leaving (n + 1) = (ofArcs (earlier ++ (members.arcs entry n ++ later))).leaving
      (n + 1) := by rw [leaving, htransitions]; rfl
  rw [hm, leaving_append_right hother, leaving_append (hlater hnegated)]

/-- In the machine the arcs of a class lead where they lead alone. -/
theorem HasClass.leads_iff (h : m.HasClass earlier members entry n) (ht : t ∈ members.arcs entry n)
    {p : Nat} {w : Nat × Nat} :
    m.Leads text t p w ↔ (ofArcs (members.arcs entry n)).Leads text t p w := by
  rcases (CharClass.mem_arcs ht).2 with ⟨-, -, code, hcode⟩ | ⟨hnegated, -, htarget, -⟩
  · have hlabel : t.inputLabel ≠ .notInSet := hcode ▸ nofun
    exact Leads.congr (fun hset => absurd hset hlabel) fun hset => absurd hset hlabel
  · refine Leads.congr (fun _ => ?_) fun _ => ?_
    · rw [htarget]
      exact iff_of_false (h.not_final hnegated) (not_isFinal_ofArcs _ _)
    · rw [htarget]
      exact h.leaving_marker hnegated

theorem HasClass.mem_transitions (h : m.HasClass earlier members entry n)
    (ht : t ∈ members.arcs entry n) : t ∈ m.transitions := by
  obtain ⟨later, htransitions, -⟩ := h.among
  rw [htransitions]
  exact List.mem_append_right _ (List.mem_append_left _ ht)

end Machine

namespace Search.Subject

open Pattern

/-! ## Searching through a class -/

/-- A step of a search from node to node along one of some arcs. -/
def Takes (s : Subject) (arcs : List Transition) (x y : Node) : Prop :=
  ∃ t ∈ arcs, t ∈ s.leaving x.state ∧ s.move x t = some y

variable {s : Subject} {m : Machine} {text : List Char} {earlier : List Transition}
  {members : CharClass} {entry n : Nat} {t : Transition}

/-- A transition that reads a listed character, or one that is not listed, leads from any node
where it leads in the graph. -/
theorem Presents.move_iff_of_reads (hs : s.Presents m text)
    (hlabel : t.inputLabel = .notInSet ∨ ∃ code, t.inputLabel = .symbol code) (x y : Node) :
    s.move x t = some y ↔ ∃ w, m.Leads text t x.position w ∧ y = ⟨w.1, w.2, false⟩ := by
  unfold move
  simp only [Machine.leads_iff, hs.getElem?_text]
  rcases hlabel with hlabel | ⟨code, hlabel⟩
  · simp only [hlabel]
    cases text[x.position]? with
    | none => simp
    | some c =>
      dsimp only
      simp only [Option.map_eq_some_iff, hs.outsideSet?_eq_some_iff]
      refine ⟨?_, ?_⟩
      · rintro ⟨target, hout, rfl⟩
        exact ⟨_, ⟨c, rfl, target, hout, rfl⟩, rfl⟩
      · rintro ⟨w, ⟨c, hc, target, hout, rfl⟩, rfl⟩
        cases hc
        exact ⟨target, hout, rfl⟩
  · simp only [hlabel]
    cases text[x.position]? with
    | none => simp
    | some c =>
      dsimp only
      rw [Option.ite_none_right_eq_some]
      refine ⟨?_, ?_⟩
      · rintro ⟨hcode, hy⟩
        exact ⟨_, ⟨c, rfl, hcode, rfl⟩, (Option.some.inj hy).symm⟩
      · rintro ⟨w, ⟨c, hc, hcode, rfl⟩, rfl⟩
        cases hc
        exact ⟨hcode, rfl⟩

theorem Presents.takes_class_iff (hs : s.Presents m text) (h : m.HasClass earlier members entry n)
    (x y : Node) : s.Takes (members.arcs entry n) x y ↔ ∃ w,
      (Machine.ofArcs (members.arcs entry n)).Moves text (x.state, x.position) w ∧
        y = ⟨w.1, w.2, false⟩ := by
  refine ⟨?_, ?_⟩
  · rintro ⟨t, ht, hleaving, hmove⟩
    rw [hs.leaving] at hleaving
    rw [hs.move_iff_of_reads (CharClass.inputLabel_of_mem_arcs ht)] at hmove
    obtain ⟨w, hleads, rfl⟩ := hmove
    have hsource := of_decide_eq_true (List.mem_filter.1 hleaving).2
    exact ⟨w, ⟨t, ht, hsource, (h.leads_iff ht).1 hleads⟩, rfl⟩
  · rintro ⟨w, ⟨t, ht, hsource, hleads⟩, rfl⟩
    refine ⟨t, ht, ?_, ?_⟩
    · rw [hs.leaving]
      exact List.mem_filter.2 ⟨h.mem_transitions ht, decide_eq_true hsource⟩
    · rw [hs.move_iff_of_reads (CharClass.inputLabel_of_mem_arcs ht)]
      exact ⟨w, (h.leads_iff ht).2 hleads, rfl⟩

/-- From the entry of a class its arcs lead a search to the exit behind one character that the
class reads, and nowhere else. -/
theorem Presents.transGen_takes_class_iff (hs : s.Presents m text)
    (h : m.HasClass earlier members entry n) {x y : Node} (hx : x.state = entry) :
    TransGen (s.Takes (members.arcs entry n)) x y ↔
      ∃ c, text[x.position]? = some c ∧ members.Reads c ∧ y = ⟨n, x.position + 1, false⟩ := by
  have hstep : ∀ y, s.Takes (members.arcs entry n) x y ↔
      ∃ c, text[x.position]? = some c ∧ members.Reads c ∧ y = ⟨n, x.position + 1, false⟩ := by
    intro y
    rw [hs.takes_class_iff h, hx]
    simp only [members.moves_entry_iff h.entry_lt]
    refine ⟨?_, ?_⟩
    · rintro ⟨w, ⟨c, hc, hreads, rfl⟩, rfl⟩
      exact ⟨c, hc, hreads, rfl⟩
    · rintro ⟨c, hc, hreads, rfl⟩
      exact ⟨_, ⟨c, hc, hreads, rfl⟩, rfl⟩
  refine ⟨?_, fun hy => .single ((hstep y).2 hy)⟩
  intro hway
  obtain ⟨z, hxz, hrest⟩ := TransGen.head'_iff.1 hway
  obtain ⟨c, hc, hreads, rfl⟩ := (hstep z).1 hxz
  rcases hrest.cases_head with rfl | ⟨u, hu, -⟩
  · exact ⟨c, hc, hreads, rfl⟩
  · obtain ⟨w, hmoves, -⟩ := (hs.takes_class_iff h _ _).1 hu
    exact absurd hmoves (members.not_moves_exit h.entry_lt)

end Search.Subject

namespace Pattern

/-! ## A class in a pattern -/

/-- A class that stands behind some tokens of a pattern is a class in the machine of the pattern. -/
theorem Expr.hasClass_machine {e : Expr} {before later : List Placed} {position : Nat}
    {members : CharClass} (name : String)
    (hdraw : e.draw 0 Draft.start =
      drawnFrom (before ++ ⟨position, .atom (.oneOf members)⟩ :: later)) :
    (e.machine name).HasClass (drawnFrom before).2.arcs.toList members (drawnFrom before).1
      (drawnFrom before).2.stateCount := by
  have hbounded : (before.foldl Reading.read {}).Bounded := Reading.bounded_foldl before
  rw [drawnFrom, List.foldl_append, List.foldl_cons] at hdraw
  unfold drawnFrom
  generalize before.foldl Reading.read {} = r at *
  obtain ⟨arcs, h⟩ := Reading.exists_extends_foldl later (r.add (.atom (.oneOf members)))
  obtain ⟨-, -, harcs⟩ := r.drawn_add_class members
  have hlast : e.draw 0 Draft.start =
      (later.foldl Reading.read (r.add (.atom (.oneOf members)))).drawn := hdraw
  have htransitions : (e.machine name).transitions = (e.draw 0 Draft.start).2.arcs.toList := rfl
  refine ⟨drawnOf_lt r.groups r.items, hbounded.source, ⟨arcs, ?_, ?_⟩, ?_⟩
  · rw [htransitions, hlast, h.arcs_eq, harcs, List.append_assoc]
  · intro hnegated t ht hsource
    exact hbounded.marker hnegated _ (hsource ▸ h.source t ht)
  · intro hnegated hfinal
    rw [e.isFinal_machine_iff, hlast] at hfinal
    exact hbounded.marker hnegated _ (h.live _ (Or.inl hfinal))

/-- What becomes of a class in the automaton of a pattern. The tokens before it lead to its entry
and leave `before` drawn, and together with it they lead to its exit and leave `after` drawn. -/
structure DrawsClass (a : Automaton) (members : CharClass) (before after : Nat × Draft) : Prop where
  /-- The arcs of the class are added behind the earlier ones, and stay there. -/
  added : after.2.arcs.toList = before.2.arcs.toList ++ members.arcs before.1 after.1
  kept : ∃ later, a.transitionsOf 0 = .ok (after.2.arcs.toList ++ later)
  /-- They are those of the elements one after another, and leave the marker if there is one. -/
  elements : members.arcs before.1 after.1 =
    (if members.negated then
      [{ source := before.1, target := after.1 + 1, input := some .notInSet }] else []) ++
      members.items.flatMap fun item =>
        fanArcs (if members.negated then after.1 + 1 else before.1) after.1 item.codes
  /-- Along them a search reads one character that the class reads, and comes to the exit. -/
  reads : ∀ text, ∃ s, a.subject text = .ok s ∧ ∀ x y, x.state = before.1 →
    (TransGen (s.Takes (members.arcs before.1 after.1)) x y ↔
      ∃ c, text.toList[x.position]? = some c ∧ members.Reads c ∧
        y = ⟨after.1, x.position + 1, false⟩)

theorem CharClass.arcs_eq_flatMap (members : CharClass) (entry n : Nat) : members.arcs entry n =
    (if members.negated then
      [{ source := entry, target := n + 1, input := some .notInSet }] else []) ++
      members.items.flatMap fun item =>
        fanArcs (if members.negated then n + 1 else entry) n item.codes := by
  unfold arcs codes fanArcs
  cases members.negated with
  | false => simp [List.map_flatMap]
  | true => simp [List.map_flatMap]

end Pattern

namespace Automaton

open Pattern

variable {pattern : String} {a : Automaton} {text word rest : List Char} {before : List Placed}
  {members : CharClass}

/-- Wherever a class stands in a pattern, its arcs in the automaton read just the characters of the
class. A range has one arc for each number between its ends, and the loop that adds them ends. -/
theorem ofPattern_class_exact (h : ofPattern pattern = .ok a)
    (hpattern : pattern.toList = text ++ (word ++ rest))
    (hbefore : Scanned text before (word ++ rest)) (hword : ClassWord word members rest) :
    DrawsClass a members (drawnFrom before)
      (drawnFrom (before ++ [⟨text.length, .atom (.oneOf members)⟩])) ∧
    ∀ first last : Char,
      (∃ codes, (ClassItem.range first last).codes = first.toNat :: codes ∧
        Loops first.toNat last.toNat codes) ∧
      ∀ source target code, (fanArcs source target (ClassItem.range first last).codes).countP
          (fun t => decide (t.inputLabel = .symbol code)) =
        if min first.toNat last.toNat ≤ code ∧ code ≤ max first.toNat last.toNat then 1 else 0 := by
  refine ⟨?_, fun first last =>
    ⟨⟨_, rfl, loops_walk _ _⟩, ClassItem.countP_fanArcs_range first last⟩⟩
  obtain ⟨e, hspells, rfl⟩ := (ofPattern_eq_ok_iff pattern a).1 h
  obtain ⟨placed, htokens, hdraw⟩ := exists_drawnFrom hspells
  rw [hpattern] at htokens
  obtain ⟨later, rfl⟩ := hbefore.exists_later (classWord_iff.1 hword) htokens
  have hclass := e.hasClass_machine ("Regex: " ++ pattern) hdraw
  obtain ⟨hexit, harcs⟩ := drawnFrom_class before text.length members
  rw [← hexit] at harcs hclass
  refine ⟨harcs, ?_, members.arcs_eq_flatMap _ _, ?_⟩
  · obtain ⟨later, htransitions, -⟩ := hclass.among
    refine ⟨later, ?_⟩
    rw [transitionsOf_ofMachines _ _ _ List.getElem?_cons_zero, htransitions, harcs,
      List.append_assoc]
  · intro text
    have hsound : (ofMachines .acceptor [e.machine ("Regex: " ++ pattern)]).violation? = none :=
      (violation?_eq_none_iff _).2 ⟨_, List.forall_mem_singleton.2 (e.fits_machine _), rfl⟩
    obtain ⟨s, hs, hpresents⟩ := exists_subject hsound (by rw [machines_ofMachines]; rfl) text
    exact ⟨s, hs, fun x y hx => hpresents.transGen_takes_class_iff hclass hx⟩

/-- The class stands behind a letter in a group that is repeated. -/
theorem ofPattern_class_exact_repeatedGroup : ∃ a, ofPattern "(a[^z-x])*" = .ok a ∧
    DrawsClass a ⟨true, [.range 'z' 'x']⟩ (drawnFrom [⟨0, .opening⟩, ⟨1, .atom (.char 'a')⟩])
      (drawnFrom [⟨0, .opening⟩, ⟨1, .atom (.char 'a')⟩,
        ⟨2, .atom (.oneOf ⟨true, [.range 'z' 'x']⟩)⟩]) := by
  obtain ⟨a, ha⟩ : ∃ a, ofPattern "(a[^z-x])*" = .ok a := by
    refine ⟨_, (ofPattern_eq_ok_iff _ _).2 ⟨.seq (.quantified .star (.seq (.atom (.char 'a'))
      (.seq (.atom (.oneOf ⟨true, [.range 'z' 'x']⟩)) .empty))) .empty, ?_, rfl⟩⟩
    rw [← parse_eq_ok_iff]
    cbv
  have hbefore : Scanned "(a".toList [⟨0, .opening⟩, ⟨1, .atom (.char 'a')⟩]
      ("[^z-x]".toList ++ ")*".toList) :=
    .word (.word (.nothing _) (.char _ (by decide) (by decide))) (.char _ (by decide) (by decide))
  have hword : ClassWord "[^z-x]".toList ⟨true, [.range 'z' 'x']⟩ ")*".toList :=
    .bracket (.negated (.more (.range _ (.plain (by decide) (by decide)) (by decide)) (.closing _)))
  exact ⟨a, ha, (ofPattern_class_exact ha rfl hbefore hword).1⟩

end Automaton

end WeightedAutomata
