-- How a pattern falls apart into tokens. A word is the text of one token, and what follows it has
-- a say in where it ends. The tokens of a pattern are those of its words from left to right, up to
-- the first place where no word begins.
import WeightedAutomata.Pattern.Token

namespace WeightedAutomata

namespace Pattern

/-! ## Words -/

/-- A character between brackets, with a backslash before it or without. -/
inductive Stem : List Char → Char → Prop
  | plain {c : Char} : c ≠ ']' → c ≠ '\\' → Stem [c] c
  | escaped (c : Char) : Stem ['\\', c] c

/-- Text before `rest` that is an element of a class. A minus and what follows it belong to the
element, unless that is the closing bracket. -/
inductive Element : List Char → ClassItem → List Char → Prop
  | one {stem rest : List Char} {c : Char} : Stem stem c →
      (∀ last later, rest = '-' :: last :: later → last = ']') → Element stem (.one c) rest
  | range {stem : List Char} {c last : Char} (rest : List Char) : Stem stem c → last ≠ ']' →
      Element (stem ++ ['-', last]) (.range c last) rest

/-- Text before `rest` that lists elements up to the closing bracket. -/
inductive Elements : List Char → List ClassItem → List Char → Prop
  | closing (rest : List Char) : Elements [']'] [] rest
  | more {word words rest : List Char} {item : ClassItem} {items : List ClassItem} :
      Element word item (words ++ rest) → Elements words items rest →
      Elements (word ++ words) (item :: items) rest

/-- Text before `rest` that is what follows the opening bracket of a class. -/
inductive Body : List Char → CharClass → List Char → Prop
  | negated {words rest : List Char} {items : List ClassItem} :
      Elements words items rest → Body ('^' :: words) ⟨true, items⟩ rest
  | listed {words rest : List Char} {items : List ClassItem} :
      words.head? ≠ some '^' → Elements words items rest → Body words ⟨false, items⟩ rest

/-- What a character stands for that is neither a backslash nor an opening bracket. -/
def Token.ofChar : Char → Token
  | '(' => .opening
  | ')' => .closing
  | '*' => .quantifier .star
  | '+' => .quantifier .plus
  | '?' => .quantifier .optional
  | '.' => .atom .any
  | '^' => .atom .textStart
  | '$' => .atom .textEnd
  | c => .atom (.char c)

/-- The classes that a backslash and a letter stand for, as they would be written in brackets. -/
def shorthandBodies : List (Char × String) :=
  [('d', "0-9"), ('D', "^0-9"), ('x', "0-9A-Fa-f"), ('X', "^0-9A-Fa-f"), ('o', "0-7"),
    ('O', "^0-7"), ('w', "0-9A-Za-z_"), ('W', "^0-9A-Za-z_"), ('h', "0-9A-Za-z"),
    ('H', "^0-9A-Za-z"), ('a', "A-Za-z"), ('A', "^A-Za-z"), ('l', "a-z"), ('L', "^a-z"),
    ('u', "A-Z"), ('U', "^A-Z")]

/-- Text before `rest` that is one token. Behind a backslash a character stands for itself, unless
it is a letter that stands for a class. -/
inductive Word : List Char → Token → List Char → Prop
  | char {c : Char} (rest : List Char) : c ≠ '[' → c ≠ '\\' → Word [c] (.ofChar c) rest
  | escape {c : Char} (rest : List Char) : (∀ body, (c, body) ∉ shorthandBodies) →
      Word ['\\', c] (.atom (.char c)) rest
  | shorthand {c : Char} {body : String} {members : CharClass} (rest : List Char) :
      (c, body) ∈ shorthandBodies → Body (body.toList ++ [']']) members [] →
      Word ['\\', c] (.atom (.oneOf members)) rest
  | bracket {words rest : List Char} {members : CharClass} :
      Body words members rest → Word ('[' :: words) (.atom (.oneOf members)) rest

/-- Text before `rest` that was scanned from left to right, with its tokens. -/
inductive Scanned : List Char → List Placed → List Char → Prop
  | nothing (rest : List Char) : Scanned [] [] rest
  | word {text word rest : List Char} {placed : List Placed} {t : Token} :
      Scanned text placed (word ++ rest) → Word word t rest →
      Scanned (text ++ word) (placed ++ [⟨text.length, t⟩]) rest

/-- A place where no word begins, with what is reported there: a backslash that is last, or a
bracket that is not closed. -/
inductive Stuck (position : Nat) : List Char → PatternError → Prop
  | escape : Stuck position ['\\'] (.trailingEscape position)
  | bracket {cs : List Char} :
      (∀ words rest members, cs = words ++ rest → ¬ Body words members rest) →
      Stuck position ('[' :: cs) (.unmatchedBracket position)

/-! ## Words stand anywhere -/

theorem Elements.exists_concat {words rest : List Char} {items : List ClassItem}
    (h : Elements words items rest) : ∃ before, words = before ++ [']'] := by
  induction h with
  | closing => exact ⟨[], rfl⟩
  | @more word words rest item items _ _ ih =>
    obtain ⟨before, rfl⟩ := ih
    exact ⟨word ++ before, (List.append_assoc ..).symm⟩

/-- A list of elements ends with its bracket, so that what follows has no say in it. -/
theorem Elements.anywhere {words rest : List Char} {items : List ClassItem}
    (h : Elements words items rest) (rest' : List Char) : Elements words items rest' := by
  induction h with
  | closing => exact .closing rest'
  | more helement helements ih =>
    refine .more ?_ ih
    cases helement with
    | one hstem hnext =>
      refine .one hstem fun last later heq => ?_
      -- Both characters behind the minus belong to the list.
      obtain ⟨before, rfl⟩ := helements.exists_concat
      rcases before with _ | ⟨c, _ | ⟨c', before⟩⟩
      · simp at heq
      · simp only [List.cons_append, List.nil_append, List.cons.injEq] at heq
        exact heq.2.1.symm
      · simp only [List.cons_append, List.cons.injEq] at heq
        obtain ⟨rfl, rfl, -⟩ := heq
        exact hnext _ _ rfl
    | range _ hstem hlast => exact .range _ hstem hlast

theorem Word.anywhere {word rest : List Char} {t : Token} (h : Word word t rest)
    (rest' : List Char) : Word word t rest' := by
  cases h with
  | char _ hbracket hescape => exact .char rest' hbracket hescape
  | escape _ hplain => exact .escape rest' hplain
  | shorthand _ hletter hbody => exact .shorthand rest' hletter hbody
  | bracket hbody =>
    cases hbody with
    | negated helements => exact .bracket (.negated (helements.anywhere rest'))
    | listed hhead helements => exact .bracket (.listed hhead (helements.anywhere rest'))

/-! ## Reading classes -/

section classes

variable {word words rest : List Char} {item : ClassItem} {items : List ClassItem}
  {members : CharClass} {c : Char} {read : Nat}

theorem plainElement_of_not_range
    (h : ∀ last later, rest = '-' :: last :: later → last = ']') :
    plainElement c rest = (.one c, 0) := by
  unfold plainElement
  split
  · exact if_pos (h _ _ rfl)
  · rfl

theorem plainElement_of_range {last : Char} (hlast : last ≠ ']') (rest : List Char) :
    plainElement c ('-' :: last :: rest) = (.range c last, 2) := if_neg hlast

/-- What a plain character begins is an element, and so is what a backslash begins with it. -/
theorem exists_plainElement (c : Char) (rest : List Char) :
    ∃ tail later, rest = tail ++ later ∧ tail.length = (plainElement c rest).2 ∧
      ∀ stem, Stem stem c → Element (stem ++ tail) (plainElement c rest).1 later := by
  by_cases h : ∀ last later, rest = '-' :: last :: later → last = ']'
  · rw [plainElement_of_not_range h]
    refine ⟨[], rest, rfl, rfl, ?_⟩
    intro stem hstem
    rw [List.append_nil]
    exact .one hstem h
  · simp only [Classical.not_forall] at h
    obtain ⟨last, later, rfl, hlast⟩ := h
    rw [plainElement_of_range hlast]
    exact ⟨['-', last], later, rfl, rfl, fun stem hstem => .range later hstem hlast⟩

theorem Element.element?_eq (h : Element word item rest) : ∃ c tail, word = c :: tail ∧
    c ≠ ']' ∧ element? c (tail ++ rest) = some (item, tail.length) := by
  cases h with
  | @one stem rest c hstem hrest =>
    cases hstem with
    | plain hclosing hescape =>
      refine ⟨c, [], rfl, hclosing, ?_⟩
      simp [element?, hescape, plainElement_of_not_range hrest]
    | escaped =>
      refine ⟨'\\', [c], rfl, by decide, ?_⟩
      simp [element?, plainElement_of_not_range hrest]
  | @range stem c last rest hstem hlast =>
    cases hstem with
    | plain hclosing hescape =>
      refine ⟨c, ['-', last], rfl, hclosing, ?_⟩
      simp [element?, hescape, plainElement_of_range hlast]
    | escaped =>
      refine ⟨'\\', [c, '-', last], rfl, by decide, ?_⟩
      simp [element?, plainElement_of_range hlast]

theorem exists_element (hc : c ≠ ']') (h : element? c rest = some (item, read)) :
    ∃ tail later, rest = tail ++ later ∧ tail.length = read ∧ Element (c :: tail) item later := by
  unfold element? at h
  by_cases hescape : c = '\\'
  · rw [if_pos hescape] at h
    cases rest with
    | nil => cases h
    | cons plain rest =>
      obtain ⟨tail, later, rfl, hlength, helement⟩ := exists_plainElement plain rest
      dsimp only at h
      rw [Option.some.injEq, Prod.mk.injEq] at h
      obtain ⟨rfl, rfl⟩ := h
      refine ⟨plain :: tail, later, rfl, congrArg (· + 1) hlength, ?_⟩
      rw [hescape]
      exact helement _ (.escaped plain)
  · rw [if_neg hescape, Option.some.injEq] at h
    obtain ⟨tail, later, rfl, hlength, helement⟩ := exists_plainElement c rest
    rw [h] at hlength helement
    exact ⟨tail, later, rfl, hlength, helement _ (.plain hc hescape)⟩

theorem Elements.elements?_eq (h : Elements words items rest) :
    elements? (words ++ rest) = some (items, words.length) := by
  induction h with
  | closing rest =>
    rw [List.singleton_append, elements?]
    rfl
  | more helement _ ih =>
    obtain ⟨c, tail, rfl, hc, hread⟩ := helement.element?_eq
    rw [List.cons_append, List.cons_append, elements?, if_neg hc, List.append_assoc, hread]
    dsimp only
    rw [List.drop_left, ih]
    simp only [List.length_cons, List.length_append]
    congr 2
    omega

theorem exists_elements {cs : List Char} (h : elements? cs = some (items, read)) :
    ∃ words rest, cs = words ++ rest ∧ words.length = read ∧ Elements words items rest := by
  induction cs using elements?.induct generalizing items read with
  | case1 => simp [elements?] at h
  | case2 rest =>
    rw [elements?, if_pos rfl] at h
    cases h
    exact ⟨[']'], rest, rfl, rfl, .closing rest⟩
  | case3 c rest hc hitem =>
    rw [elements?, if_neg hc, hitem] at h
    cases h
  | case4 c rest hc item read hitem hmore =>
    rw [elements?, if_neg hc, hitem] at h
    dsimp only at h
    rw [hmore] at h
    cases h
  | case5 c rest hc item read hitem items more hmore ih =>
    rw [elements?, if_neg hc, hitem] at h
    dsimp only at h
    rw [hmore] at h
    cases h
    obtain ⟨tail, later, rfl, rfl, helement⟩ := exists_element hc hitem
    rw [List.drop_left] at hmore ih
    obtain ⟨words, rest, rfl, rfl, helements⟩ := ih hmore
    refine ⟨c :: tail ++ words, rest, by simp, ?_, .more helement helements⟩
    simp only [List.length_append, List.length_cons]
    omega

theorem Body.class?_eq (h : Body words members rest) :
    class? (words ++ rest) = some (members, words.length) := by
  cases h with
  | negated helements => simp [class?, helements.elements?_eq]
  | listed hhead helements =>
    have hread := helements.elements?_eq
    unfold class?
    split
    · rename_i heq
      cases helements with
      | closing => cases heq
      | more helement =>
        obtain ⟨c, tail, rfl, -⟩ := helement.element?_eq
        simp_all
    · rw [hread]
      rfl

theorem exists_body {cs : List Char} (h : class? cs = some (members, read)) :
    ∃ words rest, cs = words ++ rest ∧ words.length = read ∧ Body words members rest := by
  unfold class? at h
  split at h
  · obtain ⟨⟨items, more⟩, hitems, heq⟩ := Option.map_eq_some_iff.1 h
    cases heq
    obtain ⟨words, rest, rfl, rfl, helements⟩ := exists_elements hitems
    exact ⟨'^' :: words, rest, rfl, rfl, .negated helements⟩
  · rename_i hhead
    obtain ⟨⟨items, more⟩, hitems, heq⟩ := Option.map_eq_some_iff.1 h
    cases heq
    obtain ⟨words, rest, rfl, rfl, helements⟩ := exists_elements hitems
    refine ⟨words, rest, rfl, rfl, .listed ?_ helements⟩
    intro hfirst
    obtain ⟨tail, rfl⟩ := List.head?_eq_some_iff.1 hfirst
    exact hhead _ rfl

/-- No class begins where reading one fails. -/
theorem class?_eq_none_iff (cs : List Char) : class? cs = none ↔
    ∀ words rest members, cs = words ++ rest → ¬ Body words members rest := by
  refine ⟨?_, ?_⟩
  · rintro h words rest members rfl hbody
    rw [hbody.class?_eq] at h
    cases h
  · intro h
    rcases hclass : class? cs with _ | ⟨members, read⟩
    · rfl
    · obtain ⟨words, rest, hcs, -, hbody⟩ := exists_body hclass
      exact absurd hbody (h words rest members hcs)

end classes

/-! ## Reading what a backslash stands before -/

section escapes

variable {c : Char} {body : String} {members : CharClass}

/-- A letter stands for the class that is written for it, up to the bracket that closes it. -/
theorem class?_shorthandBodies : ∀ x ∈ shorthandBodies, class? (x.2.toList ++ [']']) =
    (shorthand? x.1).map (·, (x.2.toList ++ [']']).length) := by
  have hall : shorthandBodies.all (fun x => class? (x.2.toList ++ [']']) ==
      (shorthand? x.1).map (·, (x.2.toList ++ [']']).length)) = true := by decide +kernel
  exact fun x hx => eq_of_beq (List.all_eq_true.1 hall x hx)

theorem exists_shorthandBody (h : shorthand? c = some members) :
    ∃ body, (c, body) ∈ shorthandBodies := by
  have hupper : ∀ n < 26, (shorthand? (Char.ofNat (65 + n))).isSome →
      (shorthandBodies.map (·.1)).contains (Char.ofNat (65 + n)) := by decide
  have hletter : (shorthandBodies.map (·.1)).contains c := by
    by_cases hc : c.isUpper
    · have hrange : 'A'.val ≤ c.val ∧ c.val ≤ 'Z'.val := of_decide_eq_true hc
      have hfirst : 65 ≤ c.toNat := UInt32.le_iff_toNat_le.1 hrange.1
      have hlast : c.toNat ≤ 90 := UInt32.le_iff_toNat_le.1 hrange.2
      have hfound := hupper (c.toNat - 65) (by omega)
      rw [Nat.add_sub_cancel' hfirst, Char.ofNat_toNat, h] at hfound
      exact hfound rfl
    · rw [shorthand?, if_neg hc] at h
      fun_cases shorthandItems? c with
      | case9 => simp_all [shorthandItems?]
      | _ => decide
  obtain ⟨x, hx, rfl⟩ := List.mem_map.1 (List.contains_iff_mem.1 hletter)
  exact ⟨x.2, hx⟩

/-- A letter that stands for a class stands for the one that is written for it. -/
theorem shorthand?_eq (hletter : (c, body) ∈ shorthandBodies)
    (hbody : Body (body.toList ++ [']']) members []) : shorthand? c = some members := by
  have hclass := class?_shorthandBodies _ hletter
  rw [← List.append_nil (_ ++ [']']), hbody.class?_eq] at hclass
  obtain ⟨_, hmembers, heq⟩ := Option.map_eq_some_iff.1 hclass.symm
  rw [hmembers, (Prod.mk.inj heq).1]

theorem exists_body_of_shorthand? (h : shorthand? c = some members) :
    ∃ body, (c, body) ∈ shorthandBodies ∧ Body (body.toList ++ [']']) members [] := by
  obtain ⟨body, hletter⟩ := exists_shorthandBody h
  have hclass := class?_shorthandBodies _ hletter
  rw [h] at hclass
  obtain ⟨words, later, heq, hlength, hbody⟩ := exists_body hclass
  obtain rfl : later = [] := by
    rw [heq, List.length_append] at hlength
    exact List.length_eq_zero_iff.1 (by omega)
  rw [List.append_nil] at heq
  exact ⟨body, hletter, heq ▸ hbody⟩

theorem shorthand?_eq_none_iff : shorthand? c = none ↔ ∀ body, (c, body) ∉ shorthandBodies := by
  have hall : ∀ x ∈ shorthandBodies, shorthand? x.1 ≠ none := by decide
  refine ⟨fun h body hletter => hall _ hletter h, ?_⟩
  intro h
  cases hshorthand : shorthand? c with
  | none => rfl
  | some members =>
    obtain ⟨body, hletter⟩ := exists_shorthandBody hshorthand
    exact absurd hletter (h body)

/-- A backslash and any character are a word. -/
theorem word_escaped (c : Char) (rest : List Char) :
    Word ['\\', c] (.atom (escaped c)) rest := by
  unfold escaped
  cases hshorthand : shorthand? c with
  | none => exact .escape rest (shorthand?_eq_none_iff.1 hshorthand)
  | some members =>
    obtain ⟨body, hletter, hbody⟩ := exists_body_of_shorthand? hshorthand
    exact .shorthand rest hletter hbody

end escapes

/-! ## Reading words -/

section words

variable {word text rest : List Char} {t : Token} {placed : List Placed} {c : Char} {p read : Nat}

theorem token_bracket (p : Nat) (rest : List Char) : token p '[' rest =
    match class? rest with
    | some (members, read) => .ok (.atom (.oneOf members), read)
    | none => .error (.unmatchedBracket p) := rfl

theorem token_escape (p : Nat) (c : Char) (rest : List Char) :
    token p '\\' (c :: rest) = .ok (.atom (escaped c), 1) := rfl

theorem token_of_char (p : Nat) (hbracket : c ≠ '[') (hescape : c ≠ '\\') (rest : List Char) :
    token p c rest = .ok (.ofChar c, 0) := by
  fun_cases Token.ofChar c with
  | case9 => simp [token]
  | _ => rfl

theorem Word.token_eq (h : Word word t rest) : ∃ c tail, word = c :: tail ∧
    ∀ p, token p c (tail ++ rest) = .ok (t, tail.length) := by
  cases h with
  | char rest hbracket hescape =>
    exact ⟨_, [], rfl, fun p => token_of_char p hbracket hescape rest⟩
  | @escape c rest hplain =>
    refine ⟨'\\', [c], rfl, ?_⟩
    intro p
    rw [List.singleton_append, token_escape, escaped, shorthand?_eq_none_iff.2 hplain]
    rfl
  | @shorthand c body members rest hletter hbody =>
    refine ⟨'\\', [c], rfl, ?_⟩
    intro p
    rw [List.singleton_append, token_escape, escaped, shorthand?_eq hletter hbody]
    rfl
  | bracket hbody =>
    refine ⟨'[', _, rfl, ?_⟩
    intro p
    rw [token_bracket, hbody.class?_eq]

theorem exists_word (h : token p c rest = .ok (t, read)) :
    ∃ tail later, rest = tail ++ later ∧ tail.length = read ∧ Word (c :: tail) t later := by
  by_cases hbracket : c = '['
  · subst hbracket
    rw [token_bracket] at h
    split at h
    · rename_i hclass
      cases h
      obtain ⟨words, later, rfl, rfl, hbody⟩ := exists_body hclass
      exact ⟨words, later, rfl, rfl, .bracket hbody⟩
    · cases h
  · by_cases hescape : c = '\\'
    · subst hescape
      cases rest with
      | nil => cases h
      | cons next rest =>
        cases h
        exact ⟨[next], rest, rfl, rfl, word_escaped next rest⟩
    · rw [token_of_char p hbracket hescape] at h
      cases h
      exact ⟨[], rest, rfl, rfl, .char rest hbracket hescape⟩

theorem token_eq_error_iff (p : Nat) (c : Char) (rest : List Char) (error : PatternError) :
    token p c rest = .error error ↔ Stuck p (c :: rest) error := by
  refine ⟨?_, ?_⟩
  · intro h
    by_cases hbracket : c = '['
    · subst hbracket
      rw [token_bracket] at h
      split at h
      · cases h
      · rename_i hclass
        cases h
        exact .bracket ((class?_eq_none_iff rest).1 hclass)
    · by_cases hescape : c = '\\'
      · subst hescape
        cases rest with
        | nil =>
          cases h
          exact .escape
        | cons next rest => cases h
      · rw [token_of_char p hbracket hescape] at h
        cases h
  · intro h
    cases h with
    | escape => rfl
    | bracket hnot =>
      rw [token_bracket, (class?_eq_none_iff rest).2 hnot]

/-! ## Scanning -/

theorem tokens_word (h : Word word t rest) (p : Nat) :
    tokens p (word ++ rest) = (tokens (p + word.length) rest).map (⟨p, t⟩ :: ·) := by
  obtain ⟨c, tail, rfl, hread⟩ := h.token_eq
  have hnext : p + 1 + tail.length = p + (c :: tail).length := by
    rw [List.length_cons]
    omega
  rw [List.cons_append, tokens, hread]
  dsimp only
  rw [List.drop_left, hnext]
  cases tokens (p + (c :: tail).length) rest with
  | error error => rfl
  | ok later => rfl

/-- The tokens of a pattern are those of what was scanned and then those of the rest. -/
theorem Scanned.tokens_eq (h : Scanned text placed rest) :
    tokens 0 (text ++ rest) = (tokens text.length rest).map (placed ++ ·) := by
  induction h with
  | nothing rest =>
    rw [List.nil_append, List.length_nil]
    cases tokens 0 rest with
    | error error => rfl
    | ok later => rfl
  | @word text word rest placed t _ hword ih =>
    rw [List.append_assoc, ih, tokens_word hword, List.length_append]
    cases tokens (text.length + word.length) rest with
    | error error => rfl
    | ok later => simp [Except.map]

/-- A scan comes to the end of a pattern, or to the first place where no word begins. -/
theorem Scanned.exists_last (h : Scanned text placed rest) :
    ∃ text' placed' rest', text ++ rest = text' ++ rest' ∧ Scanned text' placed' rest' ∧
      (rest' = [] ∨ ∃ error, Stuck text'.length rest' error) := by
  induction hlength : rest.length using Nat.strongRecOn generalizing text placed rest with
  | ind n ih =>
    cases rest with
    | nil => exact ⟨text, placed, [], rfl, h, Or.inl rfl⟩
    | cons c rest =>
      rcases htoken : token text.length c rest with error | ⟨t, read⟩
      · refine ⟨text, placed, c :: rest, rfl, h, Or.inr ⟨error, ?_⟩⟩
        exact (token_eq_error_iff _ _ _ _).1 htoken
      · obtain ⟨tail, later, rfl, -, hword⟩ := exists_word htoken
        have hless : later.length < n := by
          rw [← hlength, List.length_cons, List.length_append]
          omega
        have hlast := ih later.length hless (h.word hword) rfl
        rwa [List.append_assoc] at hlast

theorem tokens_of_stuck {error : PatternError} (h : Stuck p rest error) :
    tokens p rest = .error error := by
  cases rest with
  | nil => cases h
  | cons c rest => rw [tokens, (token_eq_error_iff p c rest error).2 h]

theorem tokens_eq_ok_iff (pattern : List Char) (placed : List Placed) :
    tokens 0 pattern = .ok placed ↔ Scanned pattern placed [] := by
  have hend : tokens pattern.length [] = .ok [] := by rw [tokens]
  refine ⟨?_, ?_⟩
  · intro h
    obtain ⟨text, placed', rest, heq, hscanned, rfl | ⟨error, hstuck⟩⟩ :=
      (Scanned.nothing pattern).exists_last
    · rw [List.nil_append, List.append_nil] at heq
      subst heq
      have htokens := hscanned.tokens_eq
      rw [List.append_nil, h, hend, Except.map, List.append_nil, Except.ok.injEq] at htokens
      rwa [htokens]
    · rw [List.nil_append] at heq
      rw [heq, hscanned.tokens_eq, tokens_of_stuck hstuck] at h
      cases h
  · intro h
    have htokens := h.tokens_eq
    rwa [List.append_nil, hend, Except.map, List.append_nil] at htokens

theorem tokens_eq_error_iff (pattern : List Char) (error : PatternError) :
    tokens 0 pattern = .error error ↔ ∃ text placed rest, pattern = text ++ rest ∧
      Scanned text placed rest ∧ Stuck text.length rest error := by
  refine ⟨?_, ?_⟩
  · intro h
    obtain ⟨text, placed, rest, heq, hscanned, rfl | ⟨error', hstuck⟩⟩ :=
      (Scanned.nothing pattern).exists_last
    · rw [List.nil_append, List.append_nil] at heq
      rw [heq, (tokens_eq_ok_iff text placed).2 hscanned] at h
      cases h
    · rw [List.nil_append] at heq
      have htokens := hscanned.tokens_eq
      rw [← heq, h, tokens_of_stuck hstuck] at htokens
      cases htokens
      exact ⟨text, placed, rest, heq, hscanned, hstuck⟩
  · rintro ⟨text, placed, rest, rfl, hscanned, hstuck⟩
    rw [hscanned.tokens_eq, tokens_of_stuck hstuck]
    rfl

/-- Tokens stand in the order of their positions, all of them before the rest. -/
theorem Scanned.positions (h : Scanned text placed rest) :
    (∀ x ∈ placed, x.position < text.length) ∧
      placed.Pairwise fun x y => x.position < y.position := by
  induction h with
  | nothing => exact ⟨List.forall_mem_nil _, .nil⟩
  | @word text word rest placed t _ hword ih =>
    obtain ⟨hbefore, hordered⟩ := ih
    obtain ⟨c, tail, rfl, -⟩ := hword.token_eq
    refine ⟨?_, ?_⟩
    · intro x hx
      rw [List.length_append, List.length_cons]
      rcases List.mem_append.1 hx with hx | hx
      · have := hbefore x hx
        omega
      · rw [List.mem_singleton.1 hx]
        dsimp only
        omega
    · rw [List.pairwise_append]
      refine ⟨hordered, List.pairwise_singleton _ _, ?_⟩
      intro x hx y hy
      rw [List.mem_singleton.1 hy]
      exact hbefore x hx

end words

end Pattern

end WeightedAutomata
