-- Options of the search among the arguments. A command line is put together from pieces: words,
-- flags, and the option for the depth, which has its value in the same argument or takes the next
-- one, whatever it looks like. Wherever the options stand between the words, reading them finds
-- the pieces again: the words are left in order, the last value counts and the values before it do
-- not.
import Mathlib.Data.List.Basic
import WeightedAutomata.CommandLine.Options

namespace WeightedAutomata

namespace CommandLine

/-! ## Numbers -/

/-- The characters that have to be digits. A plus goes before them, but is no number alone. -/
def numerals (text : String) : List Char :=
  match text.toList with
  | '+' :: c :: cs => c :: cs
  | cs => cs

/-- A text spells a 64-bit number: digits, with a plus in front or without. -/
structure Spells (text : String) (number : Nat) : Prop where
  some_digit : numerals text ≠ []
  digits : ∀ c ∈ numerals text, c.isDigit
  value : Nat.ofDigitChars 10 (numerals text) 0 = number
  fits : number < UInt64.size

/-- What is wrong with a text that spells no number: that it is empty, or the first character that
is no digit or makes the number too large. -/
inductive Misspells (text : String) : NumberError → Prop
  | empty : numerals text = [] → Misspells text .empty
  | foreign {before after : List Char} {c : Char} : numerals text = before ++ c :: after →
      (∀ d ∈ before, d.isDigit) → Nat.ofDigitChars 10 before 0 < UInt64.size → ¬ c.isDigit →
      Misspells text .invalidDigit
  | large {before after : List Char} {c : Char} : numerals text = before ++ c :: after →
      (∀ d ∈ before, d.isDigit) → Nat.ofDigitChars 10 before 0 < UInt64.size → c.isDigit →
      UInt64.size ≤ Nat.ofDigitChars 10 (before ++ [c]) 0 → Misspells text .tooLarge

variable {value number : Nat} {cs before after : List Char} {c : Char} {text : String}
  {error : NumberError}

theorem le_ofDigitChars (cs : List Char) (value : Nat) : value ≤ Nat.ofDigitChars 10 cs value := by
  induction cs generalizing value with
  | nil => exact Nat.le_refl _
  | cons c cs ih =>
    rw [Nat.ofDigitChars_cons]
    exact Nat.le_trans (by omega) (ih _)

theorem readDigits_eq_ok_iff (hvalue : value < UInt64.size) :
    readDigits value cs = .ok number ↔
      (∀ c ∈ cs, c.isDigit) ∧ Nat.ofDigitChars 10 cs value = number ∧ number < UInt64.size := by
  induction cs generalizing value with
  | nil =>
    rw [readDigits, Nat.ofDigitChars_nil, Except.ok.injEq]
    constructor
    · rintro rfl
      exact ⟨nofun, rfl, hvalue⟩
    · rintro ⟨-, h, -⟩
      exact h
  | cons c cs ih =>
    rw [readDigits, Nat.ofDigitChars_cons, List.forall_mem_cons]
    split
    · rename_i hdigit
      dsimp only
      split
      · rename_i hfits
        rw [ih hfits]
        simp [hdigit]
      · rename_i hlarge
        refine iff_of_false nofun ?_
        rintro ⟨-, rfl, hfits⟩
        exact hlarge (Nat.lt_of_le_of_lt (le_ofDigitChars cs _) hfits)
    · rename_i hforeign
      exact iff_of_false nofun fun h => hforeign h.1.1

/-- Digits that fit are read over. -/
theorem readDigits_append (hbefore : ∀ c ∈ before, c.isDigit)
    (hfits : Nat.ofDigitChars 10 before value < UInt64.size) :
    readDigits value (before ++ after) = readDigits (Nat.ofDigitChars 10 before value) after := by
  induction before generalizing value with
  | nil => rfl
  | cons c cs ih =>
    rw [List.forall_mem_cons] at hbefore
    rw [Nat.ofDigitChars_cons] at hfits ⊢
    rw [List.cons_append, readDigits, if_pos hbefore.1]
    dsimp only
    rw [if_pos (Nat.lt_of_le_of_lt (le_ofDigitChars cs _) hfits), ih hbefore.2 hfits]

theorem exists_of_readDigits_eq_error (hvalue : value < UInt64.size)
    (h : readDigits value cs = .error error) :
    ∃ before c after, cs = before ++ c :: after ∧ (∀ d ∈ before, d.isDigit) ∧
      Nat.ofDigitChars 10 before value < UInt64.size ∧
      (¬ c.isDigit ∧ error = .invalidDigit ∨
        c.isDigit ∧ UInt64.size ≤ Nat.ofDigitChars 10 (before ++ [c]) value ∧
          error = .tooLarge) := by
  induction cs generalizing value with
  | nil => cases h
  | cons c cs ih =>
    rw [readDigits] at h
    split at h
    · rename_i hdigit
      dsimp only at h
      split at h
      · rename_i hfits
        obtain ⟨before, d, after, rfl, hbefore, hless, hstop⟩ := ih hfits h
        refine ⟨c :: before, d, after, rfl, List.forall_mem_cons.2 ⟨hdigit, hbefore⟩, ?_, ?_⟩
        · rwa [Nat.ofDigitChars_cons]
        · rwa [List.cons_append, Nat.ofDigitChars_cons]
      · rename_i hlarge
        refine ⟨[], c, cs, rfl, nofun, hvalue, Or.inr ⟨hdigit, ?_, (Except.error.inj h).symm⟩⟩
        rw [List.nil_append, Nat.ofDigitChars_cons, Nat.ofDigitChars_nil]
        exact Nat.le_of_not_lt hlarge
    · rename_i hforeign
      exact ⟨[], c, cs, rfl, nofun, hvalue, Or.inl ⟨hforeign, (Except.error.inj h).symm⟩⟩

theorem readNumber_eq (text : String) :
    readNumber text =
      if numerals text = [] then .error .empty else readDigits 0 (numerals text) := by
  unfold readNumber numerals
  split
  · rename_i hnil
    simp only [hnil, if_true]
  · rename_i hplus
    simp only [hplus, List.cons_ne_nil, if_false]
  · rename_i hnil hplus
    split
    · rename_i heq
      exact absurd heq (hplus _ _)
    · rw [if_neg hnil]

theorem readNumber_eq_ok_iff : readNumber text = .ok number ↔ Spells text number := by
  rw [readNumber_eq]
  split
  · rename_i hnil
    exact iff_of_false nofun fun h => h.some_digit hnil
  · rename_i hne
    rw [readDigits_eq_ok_iff (by decide)]
    exact ⟨fun ⟨hdigits, hvalue, hfits⟩ => ⟨hne, hdigits, hvalue, hfits⟩,
      fun ⟨_, hdigits, hvalue, hfits⟩ => ⟨hdigits, hvalue, hfits⟩⟩

theorem readNumber_eq_error_iff : readNumber text = .error error ↔ Misspells text error := by
  rw [readNumber_eq]
  constructor
  · intro h
    split at h
    · rename_i hnil
      rw [← Except.error.inj h]
      exact .empty hnil
    · obtain ⟨before, c, after, hsplit, hbefore, hfits, ⟨hforeign, rfl⟩ | ⟨hdigit, hlarge, rfl⟩⟩ :=
        exists_of_readDigits_eq_error (by decide) h
      · exact .foreign hsplit hbefore hfits hforeign
      · exact .large hsplit hbefore hfits hdigit hlarge
  · intro h
    cases h with
    | empty hnil => rw [if_pos hnil]
    | foreign hsplit hbefore hfits hforeign =>
      rw [if_neg (by simp [hsplit]), hsplit, readDigits_append hbefore hfits, readDigits,
        if_neg hforeign]
    | large hsplit hbefore hfits hdigit hlarge =>
      rw [Nat.ofDigitChars_append, Nat.ofDigitChars_cons, Nat.ofDigitChars_nil] at hlarge
      rw [if_neg (by simp [hsplit]), hsplit, readDigits_append hbefore hfits, readDigits,
        if_pos hdigit]
      dsimp only
      rw [if_neg (Nat.not_lt.2 hlarge)]

/-! ## Pieces of a command line -/

/-- A piece of a command line: an argument for itself, which is a word or a flag, or an option with
its value, in one argument or in two. -/
inductive Piece where
  | word (text : String)
  | flag (name : String)
  | attached (value : String)
  | detached (value : String)
  deriving DecidableEq

/-- An argument is the option of a name, or begins as that option with its value does. -/
def IsOption (long argument : String) : Prop :=
  argument = long ∨ ∃ value, argument = long ++ "=" ++ value

namespace Piece

/-- The arguments that a piece consists of. -/
def arguments (long : String) : Piece → List String
  | word text => [text]
  | flag name => [name]
  | attached value => [long ++ "=" ++ value]
  | detached value => [long, value]

def word? : Piece → Option String
  | word text => some text
  | _ => none

/-- The argument of a piece that is one for itself. -/
def own? : Piece → Option String
  | word text => some text
  | flag name => some name
  | _ => none

def value? : Piece → Option String
  | attached value => some value
  | detached value => some value
  | _ => none

/-- Whether a piece is a flag of one of the names. -/
def isFlag (names : List String) : Piece → Bool
  | flag name => names.contains name
  | _ => false

/-- A piece is what it is taken for by a program with these flags. A value may be anything. -/
def Fits (long : String) (flags : List String) : Piece → Prop
  | word text => text ∉ flags ∧ ¬ IsOption long text
  | flag name => name ∈ flags
  | _ => True

end Piece

/-- The arguments of pieces, one after another. -/
def argumentsOf (long : String) (pieces : List Piece) : List String :=
  pieces.flatMap (Piece.arguments long)

/-- The words among pieces, in order. -/
def wordsOf (pieces : List Piece) : List String := pieces.filterMap Piece.word?

/-- The value of the last option among pieces. -/
def lastValue? (pieces : List Piece) : Option String := (pieces.filterMap Piece.value?).getLast?

/-! ## Options with a value -/

variable {long argument : String} {flags names : List String} {pieces : List Piece}

theorem attachedValue?_eq_some_iff {value : String} :
    attachedValue? long argument = some value ↔ argument = long ++ "=" ++ value := by
  have happend : (long ++ "=" ++ value).toList = (long ++ "=").toList ++ value.toList :=
    String.toList_append
  unfold attachedValue?
  dsimp only
  rw [Option.ite_none_right_eq_some, Option.some.injEq, List.isPrefixOf_iff_prefix,
    ← String.toList_inj, ← String.toList_inj, String.toList_ofList, happend]
  constructor
  · rintro ⟨hbegin, hvalue⟩
    rw [← hvalue, List.prefix_iff_eq_append.1 hbegin]
  · intro h
    rw [h]
    exact ⟨List.prefix_append _ _, List.drop_left⟩

theorem isOption_iff :
    IsOption long argument ↔ argument = long ∨ (attachedValue? long argument).isSome := by
  rw [IsOption, Option.isSome_iff_exists]
  simp only [attachedValue?_eq_some_iff]

instance (long argument : String) : Decidable (IsOption long argument) :=
  decidable_of_iff _ isOption_iff.symm

instance (long : String) (flags : List String) : (p : Piece) → Decidable (p.Fits long flags)
  | .word text => inferInstanceAs (Decidable (text ∉ flags ∧ ¬ IsOption long text))
  | .flag name => inferInstanceAs (Decidable (name ∈ flags))
  | .attached _ | .detached _ => inferInstanceAs (Decidable True)

theorem attachedValue?_attached (long value : String) :
    attachedValue? long (long ++ "=" ++ value) = some value :=
  attachedValue?_eq_some_iff.2 rfl

/-- The name alone has no value attached. -/
theorem attachedValue?_self (long : String) : attachedValue? long long = none := by
  rw [Option.eq_none_iff_forall_ne_some]
  intro value h
  have hlength := congrArg String.length (attachedValue?_eq_some_iff.1 h)
  simp only [String.length_append] at hlength
  have hsign : "=".length = 1 := rfl
  omega

theorem takeOption_own {rest : List String} (h : ¬ IsOption long argument) :
    takeOption long none (argument :: rest) =
      (takeOption long none rest).map fun (value, rest) => (value, argument :: rest) := by
  rw [isOption_iff, not_or, Option.not_isSome_iff_eq_none] at h
  rw [takeOption.eq_def]
  dsimp only
  rw [h.2]
  dsimp only
  rw [if_neg (by simp [h.1])]
  rfl

theorem takeOption_attached (long value : String) (rest : List String) :
    takeOption long none ((long ++ "=" ++ value) :: rest) =
      (takeOption long none rest).map fun (later, rest) => (later <|> some value, rest) := by
  rw [takeOption.eq_def]
  dsimp only
  rw [attachedValue?_attached]
  rfl

theorem takeOption_detached (long value : String) (rest : List String) :
    takeOption long none (long :: value :: rest) =
      (takeOption long none rest).map fun (later, rest) => (later <|> some value, rest) := by
  rw [takeOption.eq_def]
  dsimp only
  rw [attachedValue?_self]
  dsimp only
  rw [if_pos (Or.inl rfl)]
  rfl

theorem lastValue?_cons {p : Piece} {value : String} (h : p.value? = some value) :
    lastValue? (p :: pieces) = (lastValue? pieces <|> some value) := by
  rw [lastValue?, List.filterMap_cons_some h, List.getLast?_cons, lastValue?]
  cases (pieces.filterMap Piece.value?).getLast? <;> rfl

/-- The option is taken out of the pieces it is in, and nothing else is touched. -/
theorem takeOption_argumentsOf
    (h : ∀ p ∈ pieces, ∀ text, p.own? = some text → ¬ IsOption long text) :
    takeOption long none (argumentsOf long pieces) =
      .ok (lastValue? pieces, pieces.filterMap Piece.own?) := by
  induction pieces with
  | nil => rfl
  | cons p pieces ih =>
    rw [List.forall_mem_cons] at h
    replace ih := ih h.2
    rw [argumentsOf, List.flatMap_cons]
    cases p with
    | word text => exact (takeOption_own (h.1 text rfl)).trans (congrArg _ ih)
    | flag name => exact (takeOption_own (h.1 name rfl)).trans (congrArg _ ih)
    | attached value =>
      rw [lastValue?_cons rfl]
      exact (takeOption_attached long value _).trans (congrArg _ ih)
    | detached value =>
      rw [lastValue?_cons rfl]
      exact (takeOption_detached long value _).trans (congrArg _ ih)

/-! ## Flags -/

/-- A flag is taken out of the arguments that stand for themselves. A word is none of its names. -/
theorem takeFlag_own (hnames : ∀ name ∈ names, name ∈ flags) (h : ∀ p ∈ pieces, p.Fits long flags) :
    takeFlag names (pieces.filterMap Piece.own?) =
      (pieces.any (Piece.isFlag names),
        (pieces.filter (!Piece.isFlag names ·)).filterMap Piece.own?) := by
  have own?_word (text : String) (pieces : List Piece) :
      (Piece.word text :: pieces).filterMap Piece.own? = text :: pieces.filterMap Piece.own? := rfl
  have own?_flag (name : String) (pieces : List Piece) :
      (Piece.flag name :: pieces).filterMap Piece.own? = name :: pieces.filterMap Piece.own? := rfl
  unfold takeFlag
  induction pieces with
  | nil => rfl
  | cons p pieces ih =>
    rw [List.forall_mem_cons] at h
    obtain ⟨hany, hfilter⟩ := Prod.mk.inj (ih h.2)
    cases p with
    | word text =>
      have hword : names.contains text = false := by
        rw [List.contains_eq_mem, decide_eq_false_iff_not]
        exact fun hname => h.1.1 (hnames text hname)
      rw [own?_word, List.any_cons, hword, hany, List.filter_cons, hword, hfilter]
      rfl
    | flag name =>
      rw [own?_flag, List.any_cons, hany, List.filter_cons, hfilter, List.any_cons,
        List.filter_cons, Piece.isFlag]
      cases names.contains name with
      | false => rfl
      | true => rfl
    | _ => exact Prod.ext hany hfilter

/-- A flag stands among pieces, by one of its names. -/
def Asks (pieces : List Piece) (names : List String) : Prop :=
  ∃ name ∈ names, Piece.flag name ∈ pieces

instance (pieces : List Piece) (names : List String) : Decidable (Asks pieces names) :=
  inferInstanceAs (Decidable (∃ name ∈ names, Piece.flag name ∈ pieces))

theorem any_isFlag_iff : pieces.any (Piece.isFlag names) ↔ Asks pieces names := by
  rw [List.any_eq_true]
  constructor
  · rintro ⟨p, hp, hflag⟩
    cases p with
    | flag name => exact ⟨name, List.contains_iff_mem.1 hflag, hp⟩
    | _ => cases hflag
  · rintro ⟨name, hname, hp⟩
    exact ⟨_, hp, List.contains_iff_mem.2 hname⟩

theorem flag_mem_filter {name : String} :
    Piece.flag name ∈ pieces.filter (!Piece.isFlag names ·) ↔
      Piece.flag name ∈ pieces ∧ name ∉ names := by
  simp [List.mem_filter, Piece.isFlag]

theorem wordsOf_filter (names : List String) (pieces : List Piece) :
    wordsOf (pieces.filter (!Piece.isFlag names ·)) = wordsOf pieces := by
  rw [wordsOf, List.filterMap_filter]
  refine List.filterMap_congr ?_
  intro p _
  cases p with
  | flag name => exact ite_self _
  | _ => rfl

theorem asks_singleton {name : String} : Asks pieces [name] ↔ Piece.flag name ∈ pieces := by
  simp [Asks]

/-- Without flags only the words stand for themselves. -/
theorem filterMap_own_eq_wordsOf (h : ∀ name, Piece.flag name ∉ pieces) :
    pieces.filterMap Piece.own? = wordsOf pieces := by
  refine List.filterMap_congr ?_
  intro p hp
  cases p with
  | flag name => exact absurd hp (h name)
  | _ => rfl

/-! ## The options of the search -/

/-- The search that pieces ask for, as far as they can be read. -/
def configOf (pieces : List Piece) : Except OptionError Search.Config :=
  let config : Search.Config := { memoize := !pieces.any (Piece.isFlag ["--no-memo"]) }
  match lastValue? pieces with
  | none => .ok config
  | some value =>
    match readNumber value with
    | .ok maxDepth => .ok { config with maxDepth }
    | .error reason => .error (.invalidDepth value reason)

theorem takeConfig_argumentsOf (hmemo : "--no-memo" ∈ flags)
    (hflags : ∀ name ∈ flags, ¬ IsOption "--max-depth" name)
    (h : ∀ p ∈ pieces, p.Fits "--max-depth" flags) :
    takeConfig (argumentsOf "--max-depth" pieces) =
      (configOf pieces).map
        (·, (pieces.filter (!Piece.isFlag ["--no-memo"] ·)).filterMap Piece.own?) := by
  have hown : ∀ p ∈ pieces, ∀ text, p.own? = some text → ¬ IsOption "--max-depth" text := by
    intro p hp text htext
    cases p with
    | word _ => exact Option.some.inj htext ▸ (h _ hp).2
    | flag _ => exact Option.some.inj htext ▸ hflags _ (h _ hp)
    | _ => cases htext
  have hnames : ∀ name ∈ ["--no-memo"], name ∈ flags := by
    rintro name hname
    rwa [List.mem_singleton.1 hname]
  unfold takeConfig configOf
  rw [takeOption_argumentsOf hown]
  dsimp only [Bind.bind, Except.bind]
  rw [takeFlag_own hnames h]
  cases lastValue? pieces with
  | none => rfl
  | some value =>
    dsimp only
    cases readNumber value with
    | ok maxDepth => rfl
    | error reason => rfl

/-- A search is as pieces ask for it: the last value is its depth, and without one the depth is
2²⁰. -/
structure Configures (pieces : List Piece) (config : Search.Config) : Prop where
  memoize : config.memoize = false ↔ Piece.flag "--no-memo" ∈ pieces
  standard : lastValue? pieces = none → config.maxDepth = 1048576
  depth : ∀ value, lastValue? pieces = some value → Spells value config.maxDepth

/-- The last value among pieces is no depth. -/
def Misconfigures (pieces : List Piece) (error : OptionError) : Prop :=
  ∃ value reason, lastValue? pieces = some value ∧ Misspells value reason ∧
    error = .invalidDepth value reason

theorem configOf_eq_ok_iff {config : Search.Config} :
    configOf pieces = .ok config ↔ Configures pieces config := by
  have hmemo {memoize : Bool} : memoize = !pieces.any (Piece.isFlag ["--no-memo"]) ↔
      (memoize = false ↔ Piece.flag "--no-memo" ∈ pieces) := by
    rw [← asks_singleton, ← any_isFlag_iff]
    cases memoize <;> cases pieces.any (Piece.isFlag ["--no-memo"]) <;> decide
  obtain ⟨memoize, maxDepth⟩ := config
  unfold configOf
  cases hlast : lastValue? pieces with
  | none =>
    dsimp only
    constructor
    · intro h
      obtain ⟨rfl, rfl⟩ := Search.Config.mk.inj (Except.ok.inj h)
      exact ⟨hmemo.1 rfl, fun _ => rfl, by simp [hlast]⟩
    · intro h
      have hflag : memoize = _ := hmemo.2 h.memoize
      have hdepth : maxDepth = 1048576 := h.standard hlast
      rw [hflag, hdepth]
  | some value =>
    dsimp only
    constructor
    · intro h
      split at h
      · rename_i depth hread
        obtain ⟨rfl, rfl⟩ := Search.Config.mk.inj (Except.ok.inj h)
        exact ⟨hmemo.1 rfl, by simp [hlast], fun v hv => by
          obtain rfl := Option.some.inj (hlast.symm.trans hv)
          exact readNumber_eq_ok_iff.1 hread⟩
      · cases h
    · intro h
      rw [readNumber_eq_ok_iff.2 (h.depth value hlast)]
      dsimp only
      rw [← hmemo.2 h.memoize]

theorem configOf_eq_error_iff {error : OptionError} :
    configOf pieces = .error error ↔ Misconfigures pieces error := by
  unfold configOf Misconfigures
  cases hlast : lastValue? pieces with
  | none => exact iff_of_false nofun nofun
  | some value =>
    dsimp only
    constructor
    · intro h
      split at h
      · cases h
      · rename_i reason hread
        exact ⟨value, reason, rfl, readNumber_eq_error_iff.1 hread, (Except.error.inj h).symm⟩
    · rintro ⟨v, reason, hv, hwrong, rfl⟩
      obtain rfl := Option.some.inj hv
      rw [readNumber_eq_error_iff.2 hwrong]

theorem mem_wordsOf {text : String} : text ∈ wordsOf pieces ↔ Piece.word text ∈ pieces := by
  rw [wordsOf, List.mem_filterMap]
  constructor
  · rintro ⟨p, hp, htext⟩
    cases p with
    | word _ => rwa [← Option.some.inj htext]
    | _ => cases htext
  · intro hp
    exact ⟨_, hp, rfl⟩

theorem takeConfig_pieces (h : ∀ p ∈ pieces, p.Fits "--max-depth" ["--no-memo"]) :
    takeConfig (argumentsOf "--max-depth" pieces) = (configOf pieces).map (·, wordsOf pieces) := by
  rw [takeConfig_argumentsOf (List.mem_singleton_self _) (by decide) h, filterMap_own_eq_wordsOf,
    wordsOf_filter]
  intro name hname
  rw [flag_mem_filter] at hname
  exact hname.2 (h _ hname.1)

/-- In words no option is found. -/
theorem takeConfig_words {texts : List String}
    (h : ∀ text ∈ texts, (Piece.word text).Fits "--max-depth" ["--no-memo"]) :
    takeConfig texts = .ok ({}, texts) := by
  have harguments : argumentsOf "--max-depth" (texts.map .word) = texts := by
    rw [argumentsOf, List.flatMap_map]
    exact List.flatMap_singleton' _
  have hwords : wordsOf (texts.map .word) = texts := by
    rw [wordsOf, List.filterMap_map]
    exact List.filterMap_some
  have hlast : lastValue? (texts.map .word) = none := by
    rw [lastValue?, List.filterMap_map]
    exact congrArg _ (List.filterMap_none texts)
  have hconfig : Configures (texts.map .word) {} := by
    refine ⟨iff_of_false nofun ?_, fun _ => rfl, by simp [hlast]⟩
    simp
  have hread := takeConfig_pieces (List.forall_mem_map.2 h)
  rw [harguments, hwords, configOf_eq_ok_iff.2 hconfig] at hread
  exact hread

/-- Options are recognised wherever they stand between the words. What is left are the words, and
reading them once more finds no options. -/
theorem options_recognised_anywhere (h : ∀ p ∈ pieces, p.Fits "--max-depth" ["--no-memo"]) :
    (∀ config rest, takeConfig (argumentsOf "--max-depth" pieces) = .ok (config, rest) ↔
      Configures pieces config ∧ rest = wordsOf pieces) ∧
    (∀ error, takeConfig (argumentsOf "--max-depth" pieces) = .error error ↔
      Misconfigures pieces error) ∧
    takeConfig (wordsOf pieces) = .ok ({}, wordsOf pieces) := by
  rw [takeConfig_pieces h]
  refine ⟨?_, ?_, takeConfig_words fun text htext => h _ (mem_wordsOf.1 htext)⟩
  · intro config rest
    rw [← configOf_eq_ok_iff]
    cases configOf pieces with
    | error _ => exact iff_of_false nofun nofun
    | ok other => simp [Except.map, eq_comm]
  · intro error
    rw [← configOf_eq_error_iff]
    cases configOf pieces with
    | error _ => simp [Except.map]
    | ok _ => exact iff_of_false nofun nofun

/-- A value that looks like a flag is a value, and only the last one counts. -/
theorem options_recognised_anywhere_lookalike :
    (∀ p ∈ [Piece.word "a*", .detached "--no-memo", .word "-l", .attached "+12"],
      p.Fits "--max-depth" ["--no-memo"]) ∧
    takeConfig ["a*", "--max-depth", "--no-memo", "-l", "--max-depth=+12"] =
      .ok ({ maxDepth := 12 }, ["a*", "-l"]) ∧
    takeConfig ["a*", "-l"] = .ok ({}, ["a*", "-l"]) := by
  have hfits : ∀ p ∈ [Piece.word "a*", .detached "--no-memo", .word "-l", .attached "+12"],
      p.Fits "--max-depth" ["--no-memo"] := by
    decide
  have hnumerals : numerals "+12" = ['1', '2'] := rfl
  have hspells : Spells "+12" 12 :=
    ⟨by simp [hnumerals], by simp [hnumerals], by rw [hnumerals]; rfl, by decide⟩
  obtain ⟨hread, -, hagain⟩ := options_recognised_anywhere hfits
  refine ⟨hfits, (hread _ _).2 ⟨⟨by decide, nofun, ?_⟩, rfl⟩, hagain⟩
  rintro value hvalue
  rwa [← Option.some.inj hvalue]

end CommandLine

end WeightedAutomata
