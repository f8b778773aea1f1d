-- Parentheses without a quantifier. The tokens of a group take no part in the groups around it,
-- and parentheses leave nothing behind but the entry state that a quantifier would use. Where no
-- quantifier follows them and none comes first inside, any number of pairs draws the same.
import WeightedAutomata.Proofs.Pattern.Live
import WeightedAutomata.Proofs.Pattern.Verdict

namespace WeightedAutomata

namespace Pattern

/-- A list between pairs of the same two ends. -/
def wrap {α : Type} (left right : α) : Nat → List α → List α
  | 0, l => l
  | depth + 1, l => left :: (wrap left right depth l ++ [right])

/-- The parentheses at `p` and `q` form a group: as many are opened as closed between them, and
however far one looks no more are closed. -/
def Encloses (placed : List Placed) (p q : Nat) : Prop :=
  ∃ before inner after, placed = before ++ ⟨p, .opening⟩ :: (inner ++ ⟨q, .closing⟩ :: after) ∧
    ClosesNoMore inner ∧ openings inner = closings inner

/-! ## Words without positions -/

/-- Text that falls apart into words with these tokens. -/
inductive Lexes : List Char → List Token → Prop
  | nothing : Lexes [] []
  | word {word rest : List Char} {t : Token} {ts : List Token} :
      Word word t rest → Lexes rest ts → Lexes (word ++ rest) (t :: ts)

section lexes

variable {text text' word rest : List Char} {ts ts' : List Token} {t : Token} {c : Char}
  {placed before after : List Placed} {p q : Nat}

theorem Lexes.append (h : Lexes text ts) (h' : Lexes text' ts') :
    Lexes (text ++ text') (ts ++ ts') := by
  induction h with
  | nothing => exact h'
  | word hword _ ih =>
    rw [List.append_assoc]
    exact .word (hword.anywhere _) ih

theorem lexes_char (hbracket : c ≠ '[') (hescape : c ≠ '\\') : Lexes [c] [.ofChar c] :=
  .word (.char [] hbracket hescape) .nothing

theorem Lexes.wrap (h : Lexes text ts) (depth : Nat) :
    Lexes (wrap '(' ')' depth text) (wrap .opening .closing depth ts) := by
  induction depth with
  | zero => exact h
  | succ depth ih =>
    have hopening : Lexes ['('] [.opening] := lexes_char (by decide) (by decide)
    have hclosing : Lexes [')'] [.closing] := lexes_char (by decide) (by decide)
    exact hopening.append (ih.append hclosing)

theorem Lexes.exists_tokens (h : Lexes text ts) (p : Nat) :
    ∃ placed, tokens p text = .ok placed ∧ placed.map (·.token) = ts := by
  induction h generalizing p with
  | nothing => exact ⟨[], by rw [tokens], rfl⟩
  | @word word rest t ts hword _ ih =>
    obtain ⟨placed, hplaced, rfl⟩ := ih (p + word.length)
    refine ⟨⟨p, t⟩ :: placed, ?_, rfl⟩
    rw [tokens_word hword, hplaced]
    rfl

theorem eq_nil_of_tokens (h : tokens p text = .ok []) : text = [] := by
  cases text with
  | nil => rfl
  | cons c rest =>
    rw [tokens] at h
    split at h
    · cases h
    · split at h <;> cases h

/-- The first token of a text is that of a word. -/
theorem exists_word_of_tokens {x : Placed} (h : tokens p text = .ok (x :: after)) :
    ∃ word later, text = word ++ later ∧ x.position = p ∧ Word word x.token later ∧
      tokens (p + word.length) later = .ok after := by
  cases text with
  | nil =>
    rw [tokens] at h
    cases h
  | cons c rest =>
    rcases htoken : token p c rest with error | ⟨t, read⟩
    · rw [tokens, htoken] at h
      cases h
    · obtain ⟨tail, later, rfl, -, hword⟩ := exists_word htoken
      rw [← List.cons_append, tokens_word hword] at h
      cases hlater : tokens (p + (c :: tail).length) later with
      | error error =>
        rw [hlater] at h
        cases h
      | ok placed =>
        rw [hlater] at h
        cases h
        exact ⟨c :: tail, later, rfl, rfl, hword, hlater⟩

theorem lexes_of_tokens (h : tokens p text = .ok placed) :
    Lexes text (placed.map (·.token)) := by
  induction placed generalizing p text with
  | nil =>
    obtain rfl := eq_nil_of_tokens h
    exact .nothing
  | cons x placed ih =>
    obtain ⟨word, later, rfl, -, hword, hlater⟩ := exists_word_of_tokens h
    exact .word hword (ih hlater)

/-- Where a token stands in a text, the text falls apart. -/
theorem exists_split (h : tokens p text = .ok (before ++ ⟨q, t⟩ :: after)) :
    ∃ text' word rest, text = text' ++ (word ++ rest) ∧ q = p + text'.length ∧
      Lexes text' (before.map (·.token)) ∧ Word word t rest ∧
      tokens (q + word.length) rest = .ok after := by
  induction before generalizing p text with
  | nil =>
    obtain ⟨word, rest, rfl, rfl, hword, hrest⟩ := exists_word_of_tokens h
    exact ⟨[], word, rest, rfl, rfl, .nothing, hword, hrest⟩
  | cons x before ih =>
    obtain ⟨first, later, rfl, -, hfirst, hlater⟩ := exists_word_of_tokens h
    obtain ⟨text', word, rest, rfl, hq, hlexes, hword, hrest⟩ := ih hlater
    refine ⟨first ++ text', word, rest, ?_, ?_, .word (hfirst.anywhere _) hlexes, hword, hrest⟩
    · rw [List.append_assoc]
    · rw [hq, List.length_append]
      omega

/-- A character that begins neither a class nor an escape is a word of its own. -/
theorem Word.tail_eq_nil {tail : List Char} (h : Word (c :: tail) t rest) (hbracket : c ≠ '[')
    (hescape : c ≠ '\\') : tail = [] := by
  cases h with
  | char => rfl
  | escape | shorthand => exact absurd rfl hescape
  | bracket => exact absurd rfl hbracket

/-- A token that is such a character splits its text there. -/
theorem exists_split_at {x y : List Char} (hbracket : c ≠ '[') (hescape : c ≠ '\\')
    (h : tokens p (x ++ c :: y) = .ok (before ++ ⟨p + x.length, t⟩ :: after)) :
    Lexes x (before.map (·.token)) ∧ tokens (p + x.length + 1) y = .ok after := by
  obtain ⟨text', word, rest, htext, hq, hlexes, hword, hafter⟩ := exists_split h
  obtain ⟨rfl, hrest⟩ := List.append_inj htext (by omega)
  obtain ⟨c', tail, rfl, -⟩ := hword.token_eq
  obtain ⟨rfl, hy⟩ := List.cons.inj hrest
  obtain rfl := hword.tail_eq_nil hbracket hescape
  obtain rfl : y = rest := hy
  exact ⟨hlexes, hafter⟩

theorem Word.eq_of_quantifier {q : Quantifier} (h : Word word t rest) (ht : t = .quantifier q) :
    word = [q.char] := by
  cases h with
  | @char c =>
    unfold Token.ofChar at ht
    split at ht <;> cases ht <;> rfl
  | escape | shorthand | bracket => cases ht

/-- Text that does not begin with the character of a quantifier does not begin with such a token. -/
theorem Lexes.head_not_quantifier (h : Lexes text ts)
    (htext : ∀ q : Quantifier, text.head? ≠ some q.char) (q : Quantifier) :
    ts.head? ≠ some (.quantifier q) := by
  cases h with
  | nothing => exact nofun
  | word hword _ =>
    intro hhead
    rw [hword.eq_of_quantifier (Option.some.inj hhead)] at htext
    exact htext q rfl

end lexes

/-! ## What later tokens see -/

/-- What later tokens see of a reading: the entry states of the open groups from the inside out,
the entry state of the last item if that can still take a quantifier, and what is drawn. -/
structure Sketch where
  groups : List Nat := []
  entry : Option Nat := none
  drawn : Nat × Draft := (0, Draft.start)

namespace Sketch

/-- Draws an atom, which can take a quantifier. -/
def add (s : Sketch) (a : Atom) : Sketch :=
  ⟨s.groups, some s.drawn.1, a.draw s.drawn.1 s.drawn.2⟩

/-- Takes in one token. -/
def take (s : Sketch) : Token → Sketch
  | .atom a => s.add a
  | .opening => ⟨s.drawn.1 :: s.groups, none, s.drawn⟩
  | .closing =>
    match s.groups with
    | [] => s.add (.char ')')
    | entry :: groups => ⟨groups, some entry, s.drawn⟩
  | .quantifier q =>
    match s.entry with
    | some entry => ⟨s.groups, none, q.draw entry s.drawn.1 s.drawn.2⟩
    | none => s.add (.char q.char)

/-- Sketches that differ at most in the entry state of the last item. -/
def Alike (s s' : Sketch) : Prop := s.groups = s'.groups ∧ s.drawn = s'.drawn

end Sketch

/-- The sketch of the tokens of a pattern. -/
def sketchOf (ts : List Token) : Sketch := ts.foldl Sketch.take {}

namespace Reading

def sketch (r : Reading) : Sketch where
  groups := (entriesOf r.groups).map (·.1)
  entry := r.assembly.entry
  drawn := r.drawn

theorem sketch_add_atom (r : Reading) (a : Atom) :
    (r.add (.atom a)).sketch = r.sketch.add a := by
  unfold sketch Sketch.add
  rw [drawn_add_atom]
  rfl

/-- A token has no part in where groups opened, and none in their items. -/
theorem sketch_read (r : Reading) (x : Placed) : (r.read x).sketch = r.sketch.take x.token := by
  obtain ⟨position, token⟩ := x
  obtain ⟨groups, items, quantifiable⟩ := r
  cases token with
  | atom a => exact sketch_add_atom _ a
  | opening => rfl
  | closing =>
    cases groups with
    | nil => exact sketch_add_atom ⟨[], items, quantifiable⟩ (.char ')')
    | cons group groups =>
      simp only [read, add, sketch, assembly, drawn, entriesOf, drawnOf_closed, Sketch.take,
        List.map_cons]
  | quantifier q =>
    cases quantifiable with
    | false => exact sketch_add_atom ⟨groups, items, false⟩ (.char q.char)
    | true =>
      cases items with
      | nil => exact sketch_add_atom ⟨groups, [], true⟩ (.char q.char)
      | cons e items =>
        simp only [read, sketch, assembly, drawn, drawnOf_quantified, Sketch.take]

theorem sketch_foldl (placed : List Placed) (r : Reading) :
    (placed.foldl read r).sketch = (placed.map (·.token)).foldl Sketch.take r.sketch := by
  induction placed generalizing r with
  | nil => rfl
  | cons x placed ih => rw [List.foldl_cons, ih, sketch_read, List.map_cons, List.foldl_cons]

/-- What is read to an end is drawn, and it is if no group is open. -/
theorem exists_finish_draw_iff (r : Reading) (drawn : Nat × Draft) :
    (∃ e, r.finish = .ok e ∧ e.draw 0 Draft.start = drawn) ↔
      r.sketch.groups = [] ∧ r.sketch.drawn = drawn := by
  obtain ⟨groups, items, quantifiable⟩ := r
  cases groups with
  | nil => simp [finish, sketch, entriesOf, Reading.drawn, drawnOf, drawnBefore]
  | cons group groups => simp [finish, sketch, entriesOf]

end Reading

theorem Lexes.exists_parse_draw_iff {pattern : List Char} {ts : List Token}
    (h : Lexes pattern ts) (drawn : Nat × Draft) :
    (∃ e, parse pattern = .ok e ∧ e.draw 0 Draft.start = drawn) ↔
      (sketchOf ts).groups = [] ∧ (sketchOf ts).drawn = drawn := by
  obtain ⟨placed, hplaced, rfl⟩ := h.exists_tokens 0
  have hsketch : sketchOf (placed.map (·.token)) = (placed.foldl Reading.read {}).sketch :=
    (Reading.sketch_foldl placed {}).symm
  unfold parse
  rw [hplaced, hsketch]
  exact Reading.exists_finish_draw_iff _ drawn

/-! ## Tokens of a group -/

/-- Tokens that come to the same whatever groups are open around them, and leave these open and no
others. -/
def Whole (ts : List Token) : Prop :=
  ∀ entry drawn, ∃ entry' drawn', ∀ groups,
    ts.foldl Sketch.take ⟨groups, entry, drawn⟩ = ⟨groups, entry', drawn'⟩

section whole

variable {ts : List Token} {s s' s'' : Sketch}

/-- As long as no more groups are closed than opened, those around stay as they are. -/
theorem ClosesNoMore.exists_foldl {placed : List Placed} (h : ClosesNoMore placed)
    (entry : Option Nat) (drawn : Nat × Draft) :
    ∃ own entry' drawn', own.length + closings placed = openings placed ∧ ∀ groups,
      (placed.map (·.token)).foldl Sketch.take ⟨groups, entry, drawn⟩ =
        ⟨own ++ groups, entry', drawn'⟩ := by
  induction placed using List.reverseRecOn with
  | nil => exact ⟨[], entry, drawn, rfl, fun _ => rfl⟩
  | append_singleton placed x ih =>
    obtain ⟨hbefore, hle⟩ := (closesNoMore_concat placed x).1 h
    obtain ⟨own, entry', drawn', hlength, hfoldl⟩ := ih hbefore
    simp only [List.map_append, List.map_cons, List.map_nil, List.foldl_append, hfoldl,
      List.foldl_cons, List.foldl_nil, openings_append, closings_append] at hle ⊢
    obtain ⟨position, token⟩ := x
    cases token with
    | atom a =>
      exact ⟨own, some drawn'.1, a.draw drawn'.1 drawn'.2, hlength, fun _ => rfl⟩
    | opening =>
      refine ⟨drawn'.1 :: own, none, drawn', ?_, fun _ => rfl⟩
      have hopenings : openings [⟨position, .opening⟩] = 1 := rfl
      have hclosings : closings [⟨position, .opening⟩] = 0 := rfl
      rw [List.length_cons]
      omega
    | closing =>
      have hopenings : openings [⟨position, .closing⟩] = 0 := rfl
      have hclosings : closings [⟨position, .closing⟩] = 1 := rfl
      -- What is closed here was opened before by one of the tokens.
      cases own with
      | nil =>
        rw [List.length_nil] at hlength
        omega
      | cons opened own =>
        refine ⟨own, some opened, drawn', ?_, fun _ => rfl⟩
        rw [List.length_cons] at hlength
        omega
    | quantifier q =>
      cases entry' with
      | none =>
        exact ⟨own, some drawn'.1, (Atom.char q.char).draw drawn'.1 drawn'.2, hlength,
          fun _ => rfl⟩
      | some entry' =>
        exact ⟨own, none, q.draw entry' drawn'.1 drawn'.2, hlength, fun _ => rfl⟩

theorem whole_of_closesNoMore {placed : List Placed} (h : ClosesNoMore placed)
    (hcount : openings placed = closings placed) : Whole (placed.map (·.token)) := by
  intro entry drawn
  obtain ⟨own, entry', drawn', hlength, hfoldl⟩ := h.exists_foldl entry drawn
  obtain rfl : own = [] := List.eq_nil_of_length_eq_zero (by omega)
  exact ⟨entry', drawn', hfoldl⟩

theorem foldl_parenthesized {entry' : Option Nat} {drawn' : Nat × Draft}
    (h : ∀ groups, ts.foldl Sketch.take ⟨groups, none, s.drawn⟩ = ⟨groups, entry', drawn'⟩) :
    (.opening :: (ts ++ [.closing])).foldl Sketch.take s = ⟨s.groups, some s.drawn.1, drawn'⟩ := by
  rw [List.foldl_cons, List.foldl_append, Sketch.take, h]
  rfl

theorem Whole.wrap (h : Whole ts) (depth : Nat) : Whole (wrap .opening .closing depth ts) := by
  induction depth with
  | zero => exact h
  | succ depth ih =>
    intro entry drawn
    obtain ⟨entry', drawn', hfoldl⟩ := ih none drawn
    refine ⟨some drawn.1, drawn', fun groups => ?_⟩
    exact foldl_parenthesized (s := ⟨groups, entry, drawn⟩) hfoldl

/-! ## Parentheses leave no trace -/

theorem Sketch.Alike.trans (h : s.Alike s') (h' : s'.Alike s'') : s.Alike s'' :=
  ⟨h.1.trans h'.1, h.2.trans h'.2⟩

theorem Sketch.Alike.symm (h : s.Alike s') : s'.Alike s := ⟨h.1.symm, h.2.symm⟩

/-- Only a quantifier looks at the last item, and only at the one right before it. -/
theorem Sketch.Alike.foldl (h : s.Alike s')
    (hhead : ∀ q, ts.head? ≠ some (.quantifier q)) :
    (ts.foldl Sketch.take s).Alike (ts.foldl Sketch.take s') := by
  obtain ⟨groups, entry, drawn⟩ := s
  obtain ⟨groups', entry', drawn'⟩ := s'
  obtain ⟨hgroups, hdrawn⟩ := h
  dsimp only at hgroups hdrawn
  subst hgroups hdrawn
  cases ts with
  | nil => exact ⟨rfl, rfl⟩
  | cons t ts =>
    have htake : Sketch.take ⟨groups, entry, drawn⟩ t = Sketch.take ⟨groups, entry', drawn⟩ t := by
      cases t with
      | atom | opening => rfl
      | closing => cases groups <;> rfl
      | quantifier q => exact absurd rfl (hhead q)
    rw [List.foldl_cons, List.foldl_cons, htake]
    exact ⟨rfl, rfl⟩

theorem head?_wrap_ne (hhead : ∀ q, ts.head? ≠ some (.quantifier q)) (depth : Nat)
    (q : Quantifier) : (wrap .opening .closing depth ts).head? ≠ some (.quantifier q) := by
  cases depth with
  | zero => exact hhead q
  | succ depth => exact nofun

/-- One pair of parentheses leaves nothing behind but the entry state of the group. -/
theorem Whole.alike_parenthesized (h : Whole ts)
    (hhead : ∀ q, ts.head? ≠ some (.quantifier q)) (s : Sketch) :
    (ts.foldl Sketch.take s).Alike ((.opening :: (ts ++ [.closing])).foldl Sketch.take s) := by
  obtain ⟨entry', drawn', hfoldl⟩ := h none s.drawn
  rw [foldl_parenthesized hfoldl]
  have hopened : s.Alike ⟨s.groups, none, s.drawn⟩ := ⟨rfl, rfl⟩
  have halike := hopened.foldl hhead
  rw [hfoldl] at halike
  exact halike.trans ⟨rfl, rfl⟩

theorem Whole.alike_wrap (h : Whole ts) (hhead : ∀ q, ts.head? ≠ some (.quantifier q))
    (depth : Nat) (s : Sketch) : (ts.foldl Sketch.take s).Alike
      ((Pattern.wrap .opening .closing depth ts).foldl Sketch.take s) := by
  induction depth with
  | zero => exact ⟨rfl, rfl⟩
  | succ depth ih =>
    exact ih.trans ((h.wrap depth).alike_parenthesized (head?_wrap_ne hhead depth) s)

end whole

/-- The tokens of a pattern come to the same with as many parentheses around a part as one likes. -/
theorem alike_sketchOf (before : List Token) {inner after : List Token} (h : Whole inner)
    (hinner : ∀ q, inner.head? ≠ some (.quantifier q))
    (hafter : ∀ q, after.head? ≠ some (.quantifier q)) (depth depth' : Nat) :
    (sketchOf (before ++ (wrap .opening .closing depth inner ++ after))).Alike
      (sketchOf (before ++ (wrap .opening .closing depth' inner ++ after))) := by
  simp only [sketchOf, List.foldl_append]
  have hnone := h.alike_wrap hinner
  exact ((hnone depth _).symm.trans (hnone depth' _)).foldl hafter

/-- Text with a group in it falls apart into what is before, inside, and behind the group. -/
theorem Encloses.exists_lexes {x p y : List Char} {placed : List Placed}
    (htokens : tokens 0 (x ++ '(' :: (p ++ ')' :: y)) = .ok placed)
    (h : Encloses placed x.length (x.length + 1 + p.length)) :
    ∃ before inner after, Lexes x before ∧ Lexes p inner ∧ Lexes y after ∧ Whole inner := by
  obtain ⟨before, inner, after, rfl, hinner, hcount⟩ := h
  rw [← Nat.zero_add x.length] at htokens
  obtain ⟨hx, hrest⟩ := exists_split_at (by decide) (by decide) htokens
  rw [Nat.zero_add] at hrest
  obtain ⟨hp, hy⟩ := exists_split_at (by decide) (by decide) hrest
  exact ⟨_, _, _, hx, hp, lexes_of_tokens hy, whole_of_closesNoMore hinner hcount⟩

/-- What is drawn of an expression is all that its machine has, but for the name. -/
theorem Expr.machine_eq {e e' : Expr} (h : e'.draw 0 Draft.start = e.draw 0 Draft.start)
    (name name' : String) : e'.machine name' = { e.machine name with name := name' } := by
  unfold machine
  rw [h]

end Pattern

namespace Automaton

open Pattern

/-- Parentheses around a part of a pattern change nothing but the name of the unit, however many
pairs there are, if no quantifier follows them and none comes first inside. -/
theorem compilePattern_wrapped (a : Automaton) {x p y : List Char} {placed : List Placed}
    {after : Automaton} (htokens : tokens 0 (x ++ '(' :: (p ++ ')' :: y)) = .ok placed)
    (hgroup : Encloses placed x.length (x.length + 1 + p.length))
    (hdone : a.compilePattern (String.ofList (x ++ '(' :: (p ++ ')' :: y))) = .done () after)
    (hp : ∀ q : Quantifier, p.head? ≠ some q.char) (hy : ∀ q : Quantifier, y.head? ≠ some q.char) :
    ∃ m, after = ofMachines .acceptor [m] ∧ ∀ depth,
      a.compilePattern (String.ofList (x ++ (wrap '(' ')' depth p ++ y))) =
        .done () (ofMachines .acceptor
          [{ m with name := "Regex: " ++ String.ofList (x ++ (wrap '(' ')' depth p ++ y)) }]) := by
  obtain ⟨before, inner, behind, hx, hinner, hbehind, hwhole⟩ := hgroup.exists_lexes htokens
  have hlexes : ∀ depth, Lexes (x ++ (wrap '(' ')' depth p ++ y))
      (before ++ (wrap .opening .closing depth inner ++ behind)) :=
    fun depth => hx.append ((hinner.wrap depth).append hbehind)
  obtain ⟨e, hparse, rfl⟩ := (compilePattern_done_iff a after).1 hdone
  rw [String.toList_ofList] at hparse
  have hone : x ++ '(' :: (p ++ ')' :: y) = x ++ (wrap '(' ')' 1 p ++ y) := by simp [wrap]
  rw [hone] at hparse
  obtain ⟨hgroups, hdrawn⟩ := ((hlexes 1).exists_parse_draw_iff _).1 ⟨e, hparse, rfl⟩
  refine ⟨_, rfl, fun depth => ?_⟩
  obtain ⟨hsame, hsame'⟩ := alike_sketchOf before hwhole
    (hinner.head_not_quantifier hp) (hbehind.head_not_quantifier hy) 1 depth
  obtain ⟨e', hparse', hdraw⟩ := ((hlexes depth).exists_parse_draw_iff _).2
    ⟨hsame.symm.trans hgroups, hsame'.symm.trans hdrawn⟩
  refine (compilePattern_done_iff a _).2 ⟨e', ?_, ?_⟩
  · rw [String.toList_ofList]
    exact hparse'
  · rw [← Expr.machine_eq hdraw]

/-- The part stands in a group that is repeated, behind a class that lists a parenthesis. In it are
a parenthesis behind a backslash and a group that is repeated, and behind it all stands one that
closes nothing. -/
def repeatedAround (depth : Nat) : List Char :=
  "(a[(]".toList ++ (wrap '(' ')' depth "b\\)(c)*".toList ++ ")+)".toList)

theorem compilePattern_wrapped_repeatedAround :
    (∃ placed, tokens 0 (repeatedAround 1) = .ok placed ∧ Encloses placed 5 13) ∧
      ∃ after m, (empty .acceptor).compilePattern (String.ofList (repeatedAround 1)) =
          .done () after ∧ after = ofMachines .acceptor [m] ∧ ∀ depth,
        (empty .acceptor).compilePattern (String.ofList (repeatedAround depth)) =
          .done () (ofMachines .acceptor
            [{ m with name := "Regex: " ++ String.ofList (repeatedAround depth) }]) := by
  have hgroup : ∃ placed, tokens 0 (repeatedAround 1) = .ok placed ∧ Encloses placed 5 13 := by
    refine ⟨[⟨0, .opening⟩, ⟨1, .atom (.char 'a')⟩, ⟨2, .atom (.oneOf ⟨false, [.one '(']⟩)⟩] ++
      ⟨5, .opening⟩ :: ([⟨6, .atom (.char 'b')⟩, ⟨7, .atom (.char ')')⟩, ⟨9, .opening⟩,
        ⟨10, .atom (.char 'c')⟩, ⟨11, .closing⟩, ⟨12, .quantifier .star⟩] ++
      ⟨13, .closing⟩ :: [⟨14, .closing⟩, ⟨15, .quantifier .plus⟩, ⟨16, .closing⟩]),
      by decide +kernel, _, _, _, rfl, by decide, by decide⟩
  have hdone : ∃ after, (empty .acceptor).compilePattern (String.ofList (repeatedAround 1)) =
      .done () after := by
    have hok : (parse (repeatedAround 1)).isOk = true := by decide +kernel
    cases hparse : parse (repeatedAround 1) with
    | error error =>
      rw [hparse] at hok
      cases hok
    | ok e =>
      refine ⟨_, (compilePattern_done_iff _ _).2 ⟨e, ?_, rfl⟩⟩
      rw [String.toList_ofList]
      exact hparse
  obtain ⟨placed, htokens, hencloses⟩ := hgroup
  obtain ⟨after, hdone⟩ := hdone
  obtain ⟨m, hafter, hall⟩ := compilePattern_wrapped (empty .acceptor) (x := "(a[(]".toList)
    (p := "b\\)(c)*".toList) (y := ")+)".toList) htokens hencloses hdone
    (fun q => by cases q <;> decide) (fun q => by cases q <;> decide)
  exact ⟨⟨placed, htokens, hencloses⟩, after, m, hdone, hafter, hall⟩

end Automaton

end WeightedAutomata
