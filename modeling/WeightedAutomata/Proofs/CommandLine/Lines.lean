-- Lines of a byte stream. How a stream falls into lines is told by its bytes alone, and each
-- stream does so in one way. The texts that are read off it are those of its lines, up to the
-- first line that is not the encoding of a text: neither that line nor what follows it is seen.
import Mathlib.Data.List.Basic
import WeightedAutomata.Text.Lines

namespace WeightedAutomata

namespace Text

/-! ## Lines of bytes -/

/-- Bytes are made up of lines. A line ends in a line feed, alone or behind a carriage return, and
the last one, if it has no end, is not empty. -/
inductive Splits : List UInt8 → List (List UInt8) → Prop
  | nothing : Splits [] []
  | last {line : List UInt8} : line ≠ [] → 0x0A ∉ line → Splits line [line]
  | feed {line bytes : List UInt8} {lines : List (List UInt8)} : 0x0A ∉ line →
      line.getLast? ≠ some 0x0D → Splits bytes lines →
      Splits (line ++ 0x0A :: bytes) (line :: lines)
  | returnFeed {line bytes : List UInt8} {lines : List (List UInt8)} : 0x0A ∉ line →
      Splits bytes lines → Splits (line ++ 0x0D :: 0x0A :: bytes) (line :: lines)

variable {line bytes rest : List UInt8} {lines : List (List UInt8)} {byte : UInt8}

theorem splitLines_other (h : byte ≠ 0x0A) :
    splitLines line (byte :: bytes) = splitLines (byte :: line) bytes := by
  rw [splitLines.eq_def]
  dsimp only
  rw [if_neg h]

theorem splitLines_feed (h : line.head? ≠ some 0x0D) :
    splitLines line (0x0A :: bytes) = line.reverse :: splitLines [] bytes := by
  rw [splitLines.eq_def]
  dsimp only
  rw [if_pos rfl]
  split
  · exact absurd rfl h
  · rfl

theorem splitLines_returnFeed (line bytes : List UInt8) :
    splitLines (0x0D :: line) (0x0A :: bytes) = line.reverse :: splitLines [] bytes := rfl

theorem splitLines_append (h : 0x0A ∉ line) (before : List UInt8) :
    splitLines before (line ++ rest) = splitLines (line.reverse ++ before) rest := by
  induction line generalizing before with
  | nil => rfl
  | cons byte line ih =>
    obtain ⟨hbyte, hline⟩ := not_or.1 (List.mem_cons.not.1 h)
    rw [List.cons_append, splitLines_other (Ne.symm hbyte), ih hline, List.reverse_cons,
      List.append_assoc]
    rfl

theorem splits_splitLines (h : 0x0A ∉ line) :
    Splits (line.reverse ++ bytes) (splitLines line bytes) := by
  induction bytes generalizing line with
  | nil =>
    rw [splitLines, List.append_nil]
    cases line with
    | nil => exact .nothing
    | cons byte line => exact .last (by simp) (List.mem_reverse.not.2 h)
  | cons byte bytes ih =>
    by_cases hfeed : byte = 0x0A
    · rw [hfeed]
      have hrest : Splits bytes (splitLines [] bytes) := ih List.not_mem_nil
      by_cases hreturn : line.head? = some 0x0D
      · obtain ⟨before, rfl⟩ := List.head?_eq_some_iff.1 hreturn
        rw [splitLines_returnFeed, List.reverse_cons, List.append_assoc]
        exact .returnFeed (fun hmem => h (List.mem_cons_of_mem _ (List.mem_reverse.1 hmem))) hrest
      · rw [splitLines_feed hreturn]
        exact .feed (List.mem_reverse.not.2 h) (by rwa [List.getLast?_reverse]) hrest
    · rw [splitLines_other hfeed, ← List.singleton_append, ← List.append_assoc, ← List.reverse_cons]
      exact ih (List.not_mem_cons_of_ne_of_not_mem (Ne.symm hfeed) h)

/-- The lines of bytes are the only ones that make them up. -/
theorem splitLines_eq_iff : splitLines [] bytes = lines ↔ Splits bytes lines := by
  constructor
  · rintro rfl
    exact splits_splitLines List.not_mem_nil
  · intro h
    induction h with
    | nothing => rfl
    | @last line hne hline =>
      rw [← List.append_nil line, splitLines_append hline, List.append_nil, List.append_nil,
        splitLines, if_neg (by simpa using hne), List.reverse_reverse]
    | @feed line bytes lines hline hlast _ ih =>
      rw [splitLines_append hline, List.append_nil,
        splitLines_feed (by rwa [List.head?_reverse]), List.reverse_reverse, ih]
    | @returnFeed line bytes lines hline _ ih =>
      rw [splitLines_append hline, List.append_nil, splitLines_other (by decide),
        splitLines_returnFeed, List.reverse_reverse, ih]

/-! ## Texts of lines -/

/-- The bytes of a text in UTF-8. -/
def encode (text : String) : List UInt8 := text.toByteArray.data.toList

/-- Bytes that encode no text. -/
def Unreadable (bytes : List UInt8) : Prop := ∀ text, encode text ≠ bytes

variable {text : String} {texts : List String}

theorem decode?_eq_some_iff : decode? bytes = some text ↔ encode text = bytes := by
  unfold decode? String.fromUTF8? encode
  constructor
  · intro h
    split at h
    · rw [← Option.some.inj h]
      rfl
    · cases h
  · rintro rfl
    exact dif_pos text.isValidUTF8

theorem decode?_eq_none_iff : decode? bytes = none ↔ Unreadable bytes := by
  rw [Option.eq_none_iff_forall_ne_some]
  exact forall_congr' fun text => decode?_eq_some_iff.not

/-- Readable lines are read over. -/
theorem decodeLines_append (texts : List String) (lines : List (List UInt8)) :
    decodeLines (texts.map encode ++ lines) =
      (texts ++ (decodeLines lines).1, (decodeLines lines).2) := by
  induction texts with
  | nil => rfl
  | cons text texts ih =>
    rw [List.map_cons, List.cons_append, decodeLines, decode?_eq_some_iff.2 rfl]
    dsimp only
    rw [ih]
    rfl

theorem lines_of_splits (h : Splits bytes (texts.map encode)) :
    Text.lines bytes = (texts, false) := by
  rw [Text.lines, splitLines_eq_iff.2 h, ← List.append_nil (texts.map encode), decodeLines_append]
  rw [decodeLines, List.append_nil]

/-- What stands behind the readable lines is not seen. -/
theorem lines_of_splits_unreadable {bad : List UInt8} {later : List (List UInt8)}
    (h : Splits bytes (texts.map encode ++ bad :: later)) (hbad : Unreadable bad) :
    Text.lines bytes = (texts, true) := by
  rw [Text.lines, splitLines_eq_iff.2 h, decodeLines_append, decodeLines,
    decode?_eq_none_iff.2 hbad, List.append_nil]

end Text

end WeightedAutomata
