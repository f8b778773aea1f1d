-- Lines of standard input are searched as texts among the arguments are. What the program leaves
-- is told by the options, the pattern and the texts, wherever the texts come from: a report for
-- each text in order, or nothing but an exit code when one of the searches goes too deep. An
-- unreadable line ends the input, and the lines before it are all there is.
import WeightedAutomata.CommandLine.Grep
import WeightedAutomata.Proofs.CommandLine.Arguments
import WeightedAutomata.Proofs.CommandLine.Lines
import WeightedAutomata.Proofs.Pattern.Acceptance

namespace WeightedAutomata

namespace CommandLine

/-! ## Pieces that are options -/

/-- The pieces that are no words. -/
def optionsOf (pieces : List Piece) : List Piece := pieces.filter (·.word?.isNone)

variable {pieces given : List Piece} {names others : List String}

/-- What no word satisfies is told by the options. -/
theorem any_optionsOf {f : Piece → Bool}
    (h : ∀ text, Piece.word text ∈ pieces → f (.word text) = false) :
    (optionsOf pieces).any f = pieces.any f := by
  rw [optionsOf, List.any_filter, Bool.eq_iff_iff, List.any_eq_true, List.any_eq_true]
  refine exists_congr fun p => and_congr_right fun hp => ?_
  cases p with
  | word text => simp [Piece.word?, h text hp]
  | _ => exact Iff.of_eq (congrArg (· = true) (Bool.true_and _))

theorem lastValue?_optionsOf (pieces : List Piece) :
    lastValue? (optionsOf pieces) = lastValue? pieces := by
  rw [lastValue?, optionsOf, List.filterMap_filter, lastValue?]
  refine congrArg List.getLast? (List.filterMap_congr ?_)
  intro p _
  cases p <;> rfl

theorem any_isFlag_optionsOf (names : List String) (pieces : List Piece) :
    (optionsOf pieces).any (Piece.isFlag names) = pieces.any (Piece.isFlag names) :=
  any_optionsOf fun _ _ => rfl

theorem configOf_optionsOf (pieces : List Piece) :
    configOf (optionsOf pieces) = configOf pieces := by
  rw [configOf, configOf, lastValue?_optionsOf, any_isFlag_optionsOf]

/-- Taking a flag out does not touch the others. -/
theorem any_isFlag_filter (h : ∀ name ∈ names, name ∉ others) :
    (pieces.filter (!Piece.isFlag others ·)).any (Piece.isFlag names) =
      pieces.any (Piece.isFlag names) := by
  rw [Bool.eq_iff_iff, any_isFlag_iff, any_isFlag_iff]
  refine exists_congr fun name => and_congr_right fun hname => ?_
  rw [flag_mem_filter, and_iff_left (h name hname)]

namespace Grep

/-! ## What the arguments ask for -/

/-- The flags of the program, by all their names. -/
def flagNames : List String :=
  ["--no-memo", "-l", "--lines", "-o", "--only-matching", "-h", "--help"]

/-- The pieces are what the program takes them for. -/
def Understood (pieces : List Piece) : Prop := ∀ p ∈ pieces, p.Fits "--max-depth" flagNames

instance (pieces : List Piece) : Decidable (Understood pieces) :=
  inferInstanceAs (Decidable (∀ p ∈ pieces, p.Fits "--max-depth" flagNames))

/-- Help is asked for by a flag, or by a value that looks like one. -/
def AsksHelp (pieces : List Piece) : Prop :=
  "--help" ∈ argumentsOf "--max-depth" pieces ∨ "-h" ∈ argumentsOf "--max-depth" pieces

instance (pieces : List Piece) : Decidable (AsksHelp pieces) :=
  inferInstanceAs (Decidable (_ ∨ _))

/-- How to print what is found. -/
def styleOf (pieces : List Piece) : Style :=
  if pieces.any (Piece.isFlag ["-o", "--only-matching"]) then .part
  else if pieces.any (Piece.isFlag ["-l", "--lines"]) then .line
  else .offsets

theorem wantsHelp_iff : wantsHelp (argumentsOf "--max-depth" pieces) ↔ AsksHelp pieces := by
  rw [wantsHelp, List.any_eq_true, AsksHelp]
  constructor
  · rintro ⟨argument, hmem, hhelp⟩
    rw [Bool.or_eq_true, beq_iff_eq, beq_iff_eq] at hhelp
    rcases hhelp with rfl | rfl
    · exact Or.inl hmem
    · exact Or.inr hmem
  · rintro (hmem | hmem)
    · exact ⟨_, hmem, rfl⟩
    · exact ⟨_, hmem, rfl⟩

theorem wantsHelp_optionsOf (h : Understood pieces) :
    wantsHelp (argumentsOf "--max-depth" (optionsOf pieces)) =
      wantsHelp (argumentsOf "--max-depth" pieces) := by
  rw [wantsHelp, argumentsOf, List.any_flatMap, wantsHelp, argumentsOf, List.any_flatMap]
  refine any_optionsOf ?_
  intro text hmem
  have hflags : text ∉ flagNames := (h _ hmem).1
  simp only [flagNames, List.mem_cons, not_or] at hflags
  simp [Piece.arguments, hflags]

theorem styleOf_optionsOf (pieces : List Piece) : styleOf (optionsOf pieces) = styleOf pieces := by
  rw [styleOf, styleOf, any_isFlag_optionsOf, any_isFlag_optionsOf]

/-- The arguments are read as the pieces that they are put together from. -/
theorem command_argumentsOf (h : Understood pieces) :
    command (argumentsOf "--max-depth" pieces) =
      if wantsHelp (argumentsOf "--max-depth" pieces) then .error { stdout := help }
      else
        match configOf pieces, wordsOf pieces with
        | .error error, _ => .error (.failed error.message)
        | .ok _, [] => .error (.failed "missing PATTERN (see --help)")
        | .ok config, pattern :: texts => .ok (⟨config, styleOf pieces, pattern⟩, texts) := by
  have hnames : ∀ names ∈ [["--no-memo"], ["-l", "--lines"], ["-o", "--only-matching"]],
      ∀ name ∈ names, name ∈ flagNames := by
    decide
  unfold command
  split
  · rfl
  · rename_i hhelp
    rw [wantsHelp_iff] at hhelp
    rw [takeConfig_argumentsOf (by decide) (by decide) h]
    cases configOf pieces with
    | error error => rfl
    | ok config =>
      have hplain : ∀ p ∈ pieces.filter (!Piece.isFlag ["--no-memo"] ·),
          p.Fits "--max-depth" flagNames :=
        fun p hp => h p (List.mem_of_mem_filter hp)
      dsimp only [Except.map]
      rw [takeFlag_own (hnames _ (by simp)) hplain]
      dsimp only
      rw [takeFlag_own (hnames _ (by simp)) fun p hp => hplain p (List.mem_of_mem_filter hp)]
      dsimp only
      rw [filterMap_own_eq_wordsOf, wordsOf_filter, wordsOf_filter, wordsOf_filter,
        any_isFlag_filter (by decide), any_isFlag_filter (by decide), any_isFlag_filter (by decide)]
      · cases wordsOf pieces with
        | nil => rfl
        | cons pattern texts => rfl
      · -- Only flags that ask for help are left.
        intro name hname
        simp only [flag_mem_filter] at hname
        obtain ⟨⟨⟨hp, hmemo⟩, hlines⟩, honly⟩ := hname
        have harguments : name ∈ argumentsOf "--max-depth" pieces :=
          List.mem_flatMap.2 ⟨_, hp, List.mem_singleton_self name⟩
        have hleft : name = "-h" ∨ name = "--help" := by
          have hflag : name ∈ flagNames := h _ hp
          simp only [flagNames, List.mem_cons, List.not_mem_nil, or_false]
            at hflag hmemo hlines honly
          tauto
        rcases hleft with rfl | rfl
        · exact hhelp (Or.inr harguments)
        · exact hhelp (Or.inl harguments)

/-! ## Reports -/

/-- What is printed on a text: the part that matches, else the whole text, else where the match
stands, as the flags say. That nothing matches is only said where neither flag is given. -/
def told (pieces : List Piece) (text : String) : Option Match → String
  | some m =>
    if Asks pieces ["-o", "--only-matching"] then m.slice text ++ "\n"
    else if Asks pieces ["-l", "--lines"] then text ++ "\n"
    else toString m.start ++ " " ++ toString m.length ++ "\n"
  | none =>
    if Asks pieces ["-o", "--only-matching"] ∨ Asks pieces ["-l", "--lines"] then "" else "-\n"

theorem report_styleOf (pieces : List Piece) (text : String) (found : Option Match) :
    report (styleOf pieces) text found = told pieces text found := by
  unfold styleOf
  simp only [any_isFlag_iff]
  by_cases honly : Asks pieces ["-o", "--only-matching"] <;>
    by_cases hlines : Asks pieces ["-l", "--lines"] <;>
      cases found <;> simp [report, told, honly, hlines]

variable {find : String → Except Halt (Option Match)} {found : String → Option Match}
  {texts : List String} {style : Style}

/-- Where every search ends, the reports follow one another. -/
theorem reports_eq_ok (h : ∀ text ∈ texts, find text = .ok (found text)) :
    reports style find texts =
      .ok (String.join (texts.map fun text => report style text (found text)),
        texts.any fun text => (found text).isSome) := by
  induction texts with
  | nil => rfl
  | cons text texts ih =>
    rw [List.forall_mem_cons] at h
    rw [reports, h.1, ih h.2, List.map_cons, String.join_cons]
    rfl

/-- A search that fails leaves nothing of the reports before it. -/
theorem exists_reports_eq_error (style : Style) (find : String → Except Halt (Option Match))
    {text : String} {halt : Halt} (hmem : text ∈ texts) (h : find text = .error halt) :
    ∃ first, reports style find texts = .error first := by
  induction texts with
  | nil => cases hmem
  | cons other texts ih =>
    rw [reports]
    cases hother : find other with
    | error first => exact ⟨first, rfl⟩
    | ok found =>
      rcases List.mem_cons.1 hmem with rfl | hlater
      · cases h.symm.trans hother
      · obtain ⟨first, hfirst⟩ := ih hlater
        exact ⟨first, by rw [hfirst]; rfl⟩

/-! ## What the program leaves -/

/-- The program on a command line that is put together from pieces. -/
def runPieces (pieces : List Piece) (stdin : List UInt8) : Result :=
  run (argumentsOf "--max-depth" pieces) stdin

/-- What others see of a result: the exit code and standard output. -/
def output (result : Result) : Nat × String := (result.exit, result.stdout)

/-- The exit code and the output for texts, as the options and the pattern tell them. Help goes
before everything else, and after it options or a pattern that cannot be read. A search that goes
too deep leaves no output, not even for the texts before. Otherwise there is a report for each text
in order, and the exit code tells whether one of them matched. -/
inductive Leaves (pieces : List Piece) (pattern : String) (texts : List String) :
    Nat × String → Prop
  | help : AsksHelp pieces → Leaves pieces pattern texts (0, Grep.help)
  | badOptions {error : OptionError} : ¬ AsksHelp pieces → Misconfigures pieces error →
      Leaves pieces pattern texts (1, "")
  | badPattern {config : Search.Config} {error : PatternError} : ¬ AsksHelp pieces →
      Configures pieces config → Automaton.ofPattern pattern = .error error →
      Leaves pieces pattern texts (1, "")
  | tooDeep {config : Search.Config} {acceptor : Automaton} {text : String} : ¬ AsksHelp pieces →
      Configures pieces config → Automaton.ofPattern pattern = .ok acceptor → text ∈ texts →
      acceptor.find text config = .error (.refused (.depthExceeded config.maxDepth)) →
      Leaves pieces pattern texts (1, "")
  | reports {config : Search.Config} {acceptor : Automaton} {found : String → Option Match} :
      ¬ AsksHelp pieces → Configures pieces config → Automaton.ofPattern pattern = .ok acceptor →
      (∀ text ∈ texts, acceptor.find text config = .ok (found text)) →
      Leaves pieces pattern texts (if ∃ text ∈ texts, (found text).isSome then 0 else 1,
        String.join (texts.map fun text => told pieces text (found text)))

/-- What the program leaves for texts, and for a stream of them that an unreadable line ended. -/
def answer (pieces : List Piece) (pattern : String) (texts : List String) (spoilt : Bool) :
    Result :=
  if wantsHelp (argumentsOf "--max-depth" pieces) then { stdout := help }
  else
    match configOf pieces with
    | .error error => .failed error.message
    | .ok config => Job.run ⟨config, styleOf pieces, pattern⟩ texts spoilt

variable {pattern : String} {seen : Nat × String} {config : Search.Config} {acceptor : Automaton}

theorem answer_congr (hpieces : Understood pieces) (hgiven : Understood given)
    (hsame : optionsOf given = optionsOf pieces) :
    answer given pattern = answer pieces pattern := by
  unfold answer
  rw [← wantsHelp_optionsOf hpieces, ← wantsHelp_optionsOf hgiven, ← configOf_optionsOf pieces,
    ← configOf_optionsOf given, ← styleOf_optionsOf pieces, ← styleOf_optionsOf given, hsame]

theorem answer_of_help (h : AsksHelp pieces) (spoilt : Bool) :
    answer pieces pattern texts spoilt = { stdout := help } :=
  if_pos (wantsHelp_iff.2 h)

theorem answer_of_error {error : OptionError} (hhelp : ¬ AsksHelp pieces)
    (h : configOf pieces = .error error) (spoilt : Bool) :
    answer pieces pattern texts spoilt = .failed error.message := by
  rw [answer, if_neg (wantsHelp_iff.not.2 hhelp), h]

theorem answer_of_config (hhelp : ¬ AsksHelp pieces) (h : configOf pieces = .ok config)
    (spoilt : Bool) :
    answer pieces pattern texts spoilt =
      Job.run ⟨config, styleOf pieces, pattern⟩ texts spoilt := by
  rw [answer, if_neg (wantsHelp_iff.not.2 hhelp), h]

/-- In the machine of a pattern a search fails for its depth only. -/
theorem exists_found_or_tooDeep (hacceptor : Automaton.ofPattern pattern = .ok acceptor)
    (config : Search.Config) (texts : List String) :
    (∃ found : String → Option Match, ∀ text ∈ texts,
      acceptor.find text config = .ok (found text)) ∨
    ∃ text ∈ texts,
      acceptor.find text config = .error (.refused (.depthExceeded config.maxDepth)) := by
  obtain ⟨e, name, -, hsound, hfirst⟩ := Automaton.exists_expr_of_ofPattern hacceptor
  by_cases hdeep : ∃ text ∈ texts,
      acceptor.find text config = .error (.refused (.depthExceeded config.maxDepth))
  · exact Or.inr hdeep
  · have hfound : ∀ text, ∃ found, text ∈ texts → acceptor.find text config = .ok found := by
      intro text
      rcases Automaton.ok_or_depthExceeded_of_find hsound hfirst (e.flags_machine_ne_nil name) text
        config with ⟨found, hfound⟩ | htoo
      · exact ⟨found, fun _ => hfound⟩
      · exact ⟨none, fun hmem => absurd ⟨text, hmem, htoo⟩ hdeep⟩
    exact Or.inl (Classical.skolem.1 hfound)

theorem output_run_of_found {found : String → Option Match}
    (hacceptor : Automaton.ofPattern pattern = .ok acceptor)
    (hfound : ∀ text ∈ texts, acceptor.find text config = .ok (found text)) (spoilt : Bool) :
    output (Job.run ⟨config, styleOf pieces, pattern⟩ texts spoilt) =
      (if ∃ text ∈ texts, (found text).isSome then 0 else 1,
        String.join (texts.map fun text => told pieces text (found text))) := by
  rw [Job.run, hacceptor]
  dsimp only
  rw [outcome, reports_eq_ok hfound]
  simp only [List.any_eq_true, report_styleOf]
  rfl

theorem output_run_of_tooDeep {style : Style} {text : String} {halt : Halt}
    (hacceptor : Automaton.ofPattern pattern = .ok acceptor) (hmem : text ∈ texts)
    (h : acceptor.find text config = .error halt) (spoilt : Bool) :
    output (Job.run ⟨config, style, pattern⟩ texts spoilt) = (1, "") := by
  obtain ⟨first, hfirst⟩ := exists_reports_eq_error style (acceptor.find · config) hmem h
  rw [Job.run, hacceptor]
  dsimp only
  rw [outcome, hfirst]
  rfl

theorem leaves_answer (pieces : List Piece) (pattern : String) (texts : List String)
    (spoilt : Bool) :
    Leaves pieces pattern texts (output (answer pieces pattern texts spoilt)) := by
  by_cases hhelp : AsksHelp pieces
  · rw [answer_of_help hhelp]
    exact .help hhelp
  · cases hread : configOf pieces with
    | error error =>
      rw [answer_of_error hhelp hread]
      exact .badOptions hhelp (configOf_eq_error_iff.1 hread)
    | ok config =>
      have hconfig := configOf_eq_ok_iff.1 hread
      rw [answer_of_config hhelp hread]
      cases hacceptor : Automaton.ofPattern pattern with
      | error error =>
        rw [Job.run, hacceptor]
        exact .badPattern hhelp hconfig hacceptor
      | ok acceptor =>
        rcases exists_found_or_tooDeep hacceptor config texts with ⟨found, hfound⟩ | ⟨text, hmem, h⟩
        · rw [output_run_of_found hacceptor hfound]
          exact .reports hhelp hconfig hacceptor hfound
        · rw [output_run_of_tooDeep hacceptor hmem h]
          exact .tooDeep hhelp hconfig hacceptor hmem h

/-- Nothing but the outcome is told, and whether a stream was spoilt is not seen in it. -/
theorem Leaves.eq_answer (h : Leaves pieces pattern texts seen) (spoilt : Bool) :
    seen = output (answer pieces pattern texts spoilt) := by
  cases h with
  | help hhelp => rw [answer_of_help hhelp, output]
  | badOptions hhelp herror =>
    rw [answer_of_error hhelp (configOf_eq_error_iff.2 herror)]
    rfl
  | badPattern hhelp hconfig herror =>
    rw [answer_of_config hhelp (configOf_eq_ok_iff.2 hconfig), Job.run, herror]
    rfl
  | tooDeep hhelp hconfig hacceptor hmem h =>
    rw [answer_of_config hhelp (configOf_eq_ok_iff.2 hconfig),
      output_run_of_tooDeep hacceptor hmem h]
  | reports hhelp hconfig hacceptor hfound =>
    rw [answer_of_config hhelp (configOf_eq_ok_iff.2 hconfig), output_run_of_found hacceptor hfound]

/-! ## Standard input -/

/-- The texts behind the pattern are searched, or where there are none the lines of standard
input. -/
theorem runPieces_eq (h : Understood pieces) (hwords : wordsOf pieces = pattern :: texts)
    (stdin : List UInt8) :
    runPieces pieces stdin =
      if texts = [] then answer pieces pattern (Text.lines stdin).1 (Text.lines stdin).2
      else answer pieces pattern texts false := by
  unfold runPieces run answer
  rw [command_argumentsOf h, hwords]
  cases wantsHelp (argumentsOf "--max-depth" pieces) with
  | true => exact (ite_self _).symm
  | false =>
    cases configOf pieces with
    | error error => exact (ite_self _).symm
    | ok config =>
      cases texts with
      | nil => rfl
      | cons text texts => rfl

/-- Lines of standard input are searched as the same texts among the arguments are, with the same
options in front of them, between them and behind them. Up to a line that no text encodes the lines
are all the input, and neither that line nor a later one changes anything. -/
theorem lines_searched_as_texts (pieces given : List Piece) (pattern : String) (texts : List String)
    (hpieces : Understood pieces) (hgiven : Understood given)
    (hsame : optionsOf given = optionsOf pieces) (hpattern : wordsOf pieces = [pattern])
    (htexts : wordsOf given = pattern :: texts) (hne : texts ≠ []) :
    (∀ stdin unread, Text.Splits stdin (texts.map Text.encode) →
      runPieces pieces stdin = runPieces given unread ∧
      Leaves pieces pattern texts (output (runPieces pieces stdin))) ∧
    ∀ stdin readable bad later, Text.Splits stdin (readable.map Text.encode ++ bad :: later) →
      Text.Unreadable bad →
      Leaves pieces pattern readable (output (runPieces pieces stdin)) ∧
      (∀ whole, Text.Splits whole (readable.map Text.encode) →
        output (runPieces pieces stdin) = output (runPieces pieces whole)) ∧
      ∀ other bad' later', Text.Splits other (readable.map Text.encode ++ bad' :: later') →
        Text.Unreadable bad' → runPieces pieces other = runPieces pieces stdin := by
  have hstream (stdin) : runPieces pieces stdin =
      answer pieces pattern (Text.lines stdin).1 (Text.lines stdin).2 :=
    (runPieces_eq hpieces hpattern stdin).trans (if_pos rfl)
  constructor
  · intro stdin unread hstdin
    rw [hstream, Text.lines_of_splits hstdin, runPieces_eq hgiven htexts, if_neg hne,
      answer_congr hpieces hgiven hsame]
    exact ⟨rfl, leaves_answer _ _ _ _⟩
  · intro stdin readable bad later hstdin hbad
    rw [hstream, Text.lines_of_splits_unreadable hstdin hbad]
    have hleaves := leaves_answer pieces pattern readable true
    refine ⟨hleaves, ?_, ?_⟩
    · intro whole hwhole
      rw [hstream, Text.lines_of_splits hwhole]
      exact hleaves.eq_answer false
    · intro other bad' later' hother hbad'
      rw [hstream, Text.lines_of_splits_unreadable hother hbad']

/-- In the letter a all of it is found, and in the empty text nothing. -/
theorem find_loopThenB {text : String} (h : text ∈ ["a", ""]) :
    (Automaton.ofMachines .acceptor
      [Pattern.loopThenB.machine ("Regex: " ++ "(a*b)?")]).find text =
        .ok (if text = "a" then some ⟨0, 1⟩ else none) := by
  rcases List.mem_pair.1 h with rfl | rfl
  · obtain ⟨found, hfound⟩ := Automaton.exists_find_loopThenB "a" (by decide)
    have hmatch : found = some ⟨0, 1⟩ :=
      (Automaton.isLeftmostLongest_of_find_ofPattern Automaton.ofPattern_loopThenB hfound).unique
        Pattern.isLeftmostLongest_loopThenB
    rw [hfound, hmatch]
    rfl
  · obtain ⟨found, hfound⟩ := Automaton.exists_find_loopThenB "" (by decide)
    have hnone : found = none :=
      (Automaton.isLeftmostLongest_of_find_ofPattern Automaton.ofPattern_loopThenB hfound).unique
        fun start hlt => absurd hlt (Nat.not_lt_zero start)
    rw [hfound, hnone]
    rfl

/-- The letter matches and is printed, the empty line does not and is not. A byte that no text has
ends the input, so that the letter behind it is not printed. -/
theorem lines_searched_as_texts_loopThenB :
    Text.Splits [0x61, 0x0D, 0x0A, 0x0A] (["a", ""].map Text.encode) ∧
    runPieces [.word "(a*b)?", .flag "--lines"] [0x61, 0x0D, 0x0A, 0x0A] =
      runPieces [.word "(a*b)?", .word "a", .flag "--lines", .word ""] [] ∧
    output (runPieces [.word "(a*b)?", .flag "--lines"] [0x61, 0x0D, 0x0A, 0x0A]) = (0, "a\n") ∧
    Text.Splits [0x61, 0x0A, 0xFF, 0x0A, 0x61] (["a"].map Text.encode ++ [0xFF] :: [[0x61]]) ∧
    Text.Unreadable [0xFF] ∧
    output (runPieces [.word "(a*b)?", .flag "--lines"] [0x61, 0x0A, 0xFF, 0x0A, 0x61]) =
      (0, "a\n") := by
  have hstdin : Text.Splits [0x61, 0x0D, 0x0A, 0x0A] (["a", ""].map Text.encode) :=
    Text.splitLines_eq_iff.1 (by decide)
  have hspoilt : Text.Splits [0x61, 0x0A, 0xFF, 0x0A, 0x61]
      (["a"].map Text.encode ++ [0xFF] :: [[0x61]]) := Text.splitLines_eq_iff.1 (by decide)
  have hbad : Text.Unreadable [0xFF] := Text.decode?_eq_none_iff.1 (by decide)
  obtain ⟨hreadable, hunreadable⟩ := lines_searched_as_texts [.word "(a*b)?", .flag "--lines"]
    [.word "(a*b)?", .word "a", .flag "--lines", .word ""] "(a*b)?" ["a", ""]
    (by decide) (by decide) rfl rfl rfl (by simp)
  obtain ⟨hsame, hleaves⟩ := hreadable _ [] hstdin
  obtain ⟨hleaves', -⟩ := hunreadable _ _ _ _ hspoilt hbad
  have hconfig : Configures [.word "(a*b)?", .flag "--lines"] {} := by
    refine ⟨by decide, fun _ => rfl, ?_⟩
    rintro value ⟨⟩
  have hboth : Leaves [.word "(a*b)?", .flag "--lines"] "(a*b)?" ["a", ""] (0, "a\n") :=
    .reports (by decide) hconfig Automaton.ofPattern_loopThenB fun _ => find_loopThenB
  have hletter : Leaves [.word "(a*b)?", .flag "--lines"] "(a*b)?" ["a"] (0, "a\n") :=
    .reports (by decide) hconfig Automaton.ofPattern_loopThenB fun _ hmem =>
      find_loopThenB (List.mem_cons.2 (Or.inl (List.mem_singleton.1 hmem)))
  refine ⟨hstdin, hsame, ?_, hspoilt, hbad, ?_⟩
  · rw [hleaves.eq_answer false, ← hboth.eq_answer false]
  · rw [hleaves'.eq_answer false, ← hletter.eq_answer false]

end Grep

end CommandLine

end WeightedAutomata
