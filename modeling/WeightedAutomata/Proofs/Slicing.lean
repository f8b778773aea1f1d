-- Matches cut out of the bytes of a text. A match counts characters, and a text is cut between
-- bytes. The bytes of a match are looked up in a list of the places where characters begin, which
-- is used up from the front: first for the start, then for the length. The two bytes always stand
-- between characters, and what lies between them are the characters of the match.
import WeightedAutomata.Proofs.DepthLimit

namespace WeightedAutomata

/-! ## Cutting between bytes -/

namespace Match

/-- Where the characters of a text begin, in bytes, when the first one begins at `place`. -/
def placesFrom (place : Nat) : List Char → List Nat
  | [] => []
  | c :: cs => place :: placesFrom (place + c.utf8Size) cs

/-- Where the characters of a text begin, and where the last one ends. -/
def places (text : String) : List Nat := placesFrom 0 text.toList ++ [text.utf8ByteSize]

/-- Takes the place behind `k` others, and leaves what stands behind it. -/
def takePlace (k : Nat) (places : List Nat) : Option Nat × List Nat :=
  (places[k]?, places.drop (k + 1))

/-- The bytes of a match: that of its first character, and the one behind its last. Where there is
no such place, the text ends. -/
def bytes (m : Match) (text : String) : Nat × Nat :=
  let (start?, behind) := takePlace m.start (places text)
  let start := start?.getD text.utf8ByteSize
  let stop? := if m.length = 0 then some start else (takePlace (m.length - 1) behind).1
  (start, stop?.getD text.utf8ByteSize)

/-- The text between two bytes. Both have to stand between characters. -/
def cutBytes (text : String) (start stop : Nat) : Except Fault String :=
  if start ≤ stop ∧ String.Pos.Raw.IsValid text ⟨start⟩ ∧ String.Pos.Raw.IsValid text ⟨stop⟩ then
    match String.fromUTF8? (text.toByteArray.extract start stop) with
    | some part => .ok part
    | none => .error .missingRow
  else .error .missingRow

/-- The part of a text that a match covers, cut out of its bytes. -/
def cut (m : Match) (text : String) : Except Fault String :=
  cutBytes text (m.bytes text).1 (m.bytes text).2

/-! ## Places of characters -/

/-- How many bytes the first `k` characters take. -/
def sizeBefore (text : String) (k : Nat) : Nat := (String.ofList (text.toList.take k)).utf8ByteSize

variable {text : String} {m : Match} {i j k : Nat}

theorem getElem?_placesFrom (place : Nat) {cs : List Char} (h : k < cs.length) :
    (placesFrom place cs)[k]? = some (place + (String.ofList (cs.take k)).utf8ByteSize) := by
  induction cs generalizing place k with
  | nil => cases h
  | cons c cs ih =>
    cases k with
    | zero => simp [placesFrom]
    | succ k =>
      rw [placesFrom, List.getElem?_cons_succ, ih _ (Nat.lt_of_succ_lt_succ h), List.take_succ_cons,
        String.ofList_cons, String.utf8ByteSize_append, String.utf8ByteSize_singleton,
        Nat.add_assoc]

theorem length_placesFrom (place : Nat) (cs : List Char) :
    (placesFrom place cs).length = cs.length := by
  induction cs generalizing place with
  | nil => rfl
  | cons c cs ih => rw [placesFrom, List.length_cons, ih, List.length_cons]

theorem sizeBefore_of_le (h : text.toList.length ≤ k) : sizeBefore text k = text.utf8ByteSize := by
  rw [sizeBefore, List.take_of_length_le h, String.ofList_toList]

/-- Each place is told by the characters before it, also past the end of the text. -/
theorem getD_places (text : String) (k : Nat) :
    (places text)[k]?.getD text.utf8ByteSize = sizeBefore text k := by
  have hlength := length_placesFrom 0 text.toList
  unfold places
  by_cases hk : k < text.toList.length
  · rw [List.getElem?_append_left (by omega), getElem?_placesFrom 0 hk, Nat.zero_add]
    rfl
  · rw [List.getElem?_append_right (by omega), sizeBefore_of_le (Nat.le_of_not_lt hk),
      List.getElem?_singleton]
    split
    · rfl
    · rfl

/-- What is left behind the start counts on from there. -/
theorem bytes_eq (m : Match) (text : String) :
    m.bytes text = (sizeBefore text m.start, sizeBefore text m.stop) := by
  unfold bytes takePlace
  dsimp only
  rw [getD_places, Prod.mk.injEq]
  refine ⟨rfl, ?_⟩
  split
  · rename_i hlength
    rw [stop, hlength, Nat.add_zero]
    rfl
  · rename_i hlength
    have hstop : m.start + 1 + (m.length - 1) = m.stop := by
      rw [stop]
      omega
    rw [List.getElem?_drop, hstop, getD_places]

theorem sizeBefore_mono (text : String) (h : i ≤ j) : sizeBefore text i ≤ sizeBefore text j := by
  have hsplit : text.toList.take j = text.toList.take i ++ (text.toList.take j).drop i := by
    conv =>
      lhs
      rw [← List.take_append_drop i (text.toList.take j), List.take_take, Nat.min_eq_left h]
  rw [sizeBefore, sizeBefore, hsplit, String.ofList_append, String.utf8ByteSize_append]
  exact Nat.le_add_right _ _

theorem isValid_sizeBefore (text : String) (k : Nat) :
    String.Pos.Raw.IsValid text ⟨sizeBefore text k⟩ :=
  String.Pos.Raw.isValid_iff_exists_take_toList.2 ⟨k, rfl⟩

/-! ## What is cut out -/

/-- The bytes between two places encode the characters between them. -/
theorem extract_sizeBefore (text : String) (start length : Nat) :
    text.toByteArray.extract (sizeBefore text start) (sizeBefore text (start + length)) =
      ((text.toList.drop start).take length).utf8Encode := by
  have htake : text.toList.take (start + length) =
      text.toList.take start ++ (text.toList.drop start).take length := List.take_add
  have hsplit : text.toByteArray = (text.toList.take start).utf8Encode ++
      (((text.toList.drop start).take length).utf8Encode ++
        ((text.toList.drop start).drop length).utf8Encode) := by
    rw [← List.utf8Encode_append, ← List.utf8Encode_append, List.take_append_drop,
      List.take_append_drop, String.utf8Encode_toList]
  have hsize : ∀ cs : List Char, (String.ofList cs).utf8ByteSize = cs.utf8Encode.size := by
    intro cs
    rw [← String.size_toByteArray, String.toByteArray_ofList]
  rw [sizeBefore, sizeBefore, htake, String.ofList_append, String.utf8ByteSize_append, hsize, hsize,
    hsplit]
  refine Eq.trans (ByteArray.extract_append_size_add' (i := 0) rfl) ?_
  exact ByteArray.extract_append_eq_left rfl

theorem fromUTF8?_utf8Encode (cs : List Char) :
    String.fromUTF8? cs.utf8Encode = some (String.ofList cs) := by
  unfold String.fromUTF8?
  rw [dif_pos ByteArray.isValidUTF8_utf8Encode, Option.some.injEq, ← String.toByteArray_inj,
    String.toByteArray_ofList]
  rfl

/-- Cutting does not fail, and gives the characters of the match. -/
theorem cut_eq (m : Match) (text : String) : m.cut text = .ok (m.slice text) := by
  have hle : sizeBefore text m.start ≤ sizeBefore text m.stop :=
    sizeBefore_mono text (Nat.le_add_right _ _)
  unfold cut cutBytes
  rw [bytes_eq, if_pos ⟨hle, isValid_sizeBefore text _, isValid_sizeBefore text _⟩]
  dsimp only
  rw [stop, extract_sizeBefore, fromUTF8?_utf8Encode]
  rfl

example : (⟨1, 7⟩ : Match).bytes "aöö!" = (1, 6) ∧ (⟨1, 2⟩ : Match).cut "aöö!" = .ok "öö" ∧
    (⟨4, 0⟩ : Match).cut "aöö!" = .ok "" ∧ cutBytes "aöö!" 1 2 = .error .missingRow := by
  decide +kernel

/-! ## Characters of a match -/

/-- What a match covers of a text. Its bytes stand between characters, and what lies between them
are the characters from the start on, as many as the length says and as there are. -/
structure Covers (m : Match) (text part : String) : Prop where
  ordered : (m.bytes text).1 ≤ (m.bytes text).2
  first : String.Pos.Raw.IsValid text ⟨(m.bytes text).1⟩
  last : String.Pos.Raw.IsValid text ⟨(m.bytes text).2⟩
  length : part.toList.length = min m.stop text.toList.length - m.start
  characters : ∀ i, part.toList[i]? = if i < m.length then text.toList[m.start + i]? else none

theorem toList_slice (m : Match) (text : String) :
    (m.slice text).toList = (text.toList.drop m.start).take m.length := by
  rw [slice, String.toList_ofList]

theorem length_slice (m : Match) (text : String) :
    (m.slice text).toList.length = min m.stop text.toList.length - m.start := by
  rw [toList_slice, List.length_take, List.length_drop, stop]
  omega

theorem covers_slice (m : Match) (text : String) : m.Covers text (m.slice text) where
  ordered := by
    rw [bytes_eq]
    exact sizeBefore_mono text (Nat.le_add_right _ _)
  first := by
    rw [bytes_eq]
    exact isValid_sizeBefore text _
  last := by
    rw [bytes_eq]
    exact isValid_sizeBefore text _
  length := length_slice m text
  characters := by
    intro i
    rw [toList_slice, List.getElem?_take, List.getElem?_drop]

end Match

/-! ## Characters that are read -/

namespace Machine

open Relation

/-- A way through the graph of a machine over a text, with the characters that are read on it. -/
inductive Reads (m : Machine) (text : List Char) : Nat × Nat → List Char → Nat × Nat → Prop
  | nothing (v : Nat × Nat) : Reads m text v [] v
  | stay {u v w : Nat × Nat} {cs : List Char} : m.Moves text u v → v.2 = u.2 →
      Reads m text v cs w → Reads m text u cs w
  | read {u v w : Nat × Nat} {c : Char} {cs : List Char} : m.Moves text u v → v.2 = u.2 + 1 →
      text[u.2]? = some c → Reads m text v cs w → Reads m text u (c :: cs) w

variable {m : Machine} {text : List Char} {u v w : Nat × Nat}

theorem Moves.stays_or_reads (h : m.Moves text u v) :
    v.2 = u.2 ∨ v.2 = u.2 + 1 ∧ ∃ c, text[u.2]? = some c := by
  obtain ⟨q, p⟩ := u
  obtain ⟨t, -, -, hleads⟩ := h
  cases hleads with
  | epsilon => exact Or.inl rfl
  | textEnd => exact Or.inl rfl
  | textStart => exact Or.inl rfl
  | any _ _ hlt => exact Or.inr ⟨rfl, _, List.getElem?_eq_getElem hlt⟩
  | symbol _ c _ hc => exact Or.inr ⟨rfl, c, hc⟩
  | outside _ c _ _ hc _ => exact Or.inr ⟨rfl, c, hc⟩

/-- On a way from one position to another just the characters between them are read. -/
theorem reads_of_reflTransGen (h : ReflTransGen (m.Moves text) u w) :
    u.2 ≤ w.2 ∧ m.Reads text u ((text.drop u.2).take (w.2 - u.2)) w := by
  induction h using ReflTransGen.head_induction_on with
  | refl => exact ⟨Nat.le_refl _, by simpa using .nothing w⟩
  | @head u v hmove _ ih =>
    obtain ⟨hle, hreads⟩ := ih
    rcases hmove.stays_or_reads with hstay | ⟨hread, c, hc⟩
    · rw [hstay] at hle hreads
      exact ⟨hle, .stay hmove hstay hreads⟩
    · rw [hread] at hle hreads
      obtain ⟨hlt, rfl⟩ := List.getElem?_eq_some_iff.1 hc
      have hcount : w.2 - u.2 = w.2 - (u.2 + 1) + 1 := by omega
      refine ⟨by omega, ?_⟩
      rw [List.drop_eq_getElem_cons hlt, hcount, List.take_succ_cons]
      exact .read hmove hread hc hreads

end Machine

namespace Automaton

/-- Only in a sound automaton whose first machine has a state something is looked for. -/
theorem sound_of_find {a : Automaton} {text : String} {config : Search.Config}
    {found : Option Match} (h : a.find text config = .ok found) :
    a.violation? = none ∧ ∃ m, a.machines.head? = some m ∧ m.flags ≠ [] := by
  unfold find at h
  split at h
  · cases h
  · rename_i row rest hunits
    split at h
    · cases h
    · rename_i hcount
      cases hcheck : a.check with
      | error fault =>
        rw [hcheck] at h
        cases h
      | ok _ =>
        have hsound := (check_eq_ok_iff a).1 hcheck
        have hfirst : a.machines[0]? = some (a.machineAt row) := by rw [machines, hunits]; rfl
        obtain ⟨row', hrow, hlength, -⟩ := exists_row hsound hfirst
        obtain rfl : row = row' := by simpa [hunits] using hrow
        refine ⟨hsound, a.machineAt row, by rw [List.head?_eq_getElem?, hfirst], ?_⟩
        intro hnil
        rw [hnil] at hlength
        exact hcount hlength

end Automaton

namespace Match

/-- A match is cut out of any text, also past its end, without breaking a character. What is found
in a text has just as many characters as its length says, and they are those that a way to a final
state reads. -/
theorem slice_exact (m : Match) (text : String) :
    m.cut text = .ok (m.slice text) ∧ m.Covers text (m.slice text) ∧
    ∀ (a : Automaton) (config : Search.Config), a.find text config = .ok (some m) →
      (m.slice text).toList.length = m.length ∧
      ∃ machine state, a.machines.head? = some machine ∧ machine.IsFinal state ∧
        machine.Reads text.toList (0, m.start) (m.slice text).toList (state, m.stop) := by
  refine ⟨cut_eq m text, covers_slice m text, ?_⟩
  intro a config hfound
  obtain ⟨hsound, machine, hfirst, hstates⟩ := Automaton.sound_of_find hfound
  obtain ⟨hlt, haccepts, -, -⟩ := Automaton.isLeftmostLongest_of_find hsound hfirst hstates hfound
  have hstop := haccepts.stop_le (Nat.le_of_lt hlt)
  obtain ⟨state, hfinal, hmoves⟩ := haccepts
  have hreads := (Machine.reads_of_reflTransGen hmoves).2
  have hlength : m.stop - m.start = m.length := Nat.add_sub_cancel_left _ _
  refine ⟨?_, machine, state, hfirst, hfinal, ?_⟩
  · rw [length_slice, Nat.min_eq_left hstop, hlength]
  · rw [toList_slice, ← hlength]
    exact hreads

end Match

namespace Automaton

/-- Reads one character. -/
def anyCharacter : Machine where
  name := "any"
  flags := [0, 1]
  transitions := [{ source := 0, target := 1, input := some .anyChar }]

theorem find_anyCharacter : (ofMachines .acceptor [anyCharacter]).find "ö" = .ok (some ⟨0, 1⟩) := by
  have hsound : (ofMachines .acceptor [anyCharacter]).violation? = none := by decide
  have hmove : anyCharacter.Moves ['ö'] (0, 0) (1, 1) :=
    ⟨_, List.mem_singleton_self _, rfl, .any 0 rfl (by decide)⟩
  have haccepts : anyCharacter.Accepts ['ö'] 0 1 := ⟨1, ⟨1, rfl, by decide⟩, .single hmove⟩
  have hleftmost : IsLeftmostLongest (anyCharacter.Accepts ['ö']) 1 (some ⟨0, 1⟩) :=
    ⟨Nat.one_pos, haccepts, fun stop h => h.stop_le (Nat.zero_le _), fun _ hlt => by cases hlt⟩
  obtain ⟨found, hfound⟩ := exists_ok_of_not_tooDeep hsound rfl (by decide)
    (Machine.not_tooDeep (closed_of_violation?_eq_none hsound rfl) (by decide) "ö".toList
      (by decide : _ ≤ ({} : Search.Config).maxDepth))
  rw [hfound, (isLeftmostLongest_of_find hsound rfl (by decide) hfound).unique hleftmost]

/-- The match is one character and two bytes long. -/
theorem slice_exact_anyCharacter :
    (ofMachines .acceptor [anyCharacter]).find "ö" = .ok (some ⟨0, 1⟩) ∧
      (⟨0, 1⟩ : Match).bytes "ö" = (0, 2) ∧ ((⟨0, 1⟩ : Match).slice "ö").toList.length = 1 ∧
      ∃ machine state, (ofMachines .acceptor [anyCharacter]).machines.head? = some machine ∧
        machine.IsFinal state ∧
        machine.Reads "ö".toList (0, 0) ((⟨0, 1⟩ : Match).slice "ö").toList (state, 1) :=
  ⟨find_anyCharacter, by decide +kernel,
    (Match.slice_exact ⟨0, 1⟩ "ö").2.2 (ofMachines .acceptor [anyCharacter]) {} find_anyCharacter⟩

end Automaton

end WeightedAutomata
