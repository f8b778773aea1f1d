-- What patterns mean, apart from the automata that are drawn for them. A pattern relates two
-- positions of a text when it can be read between them.
import Mathlib.Logic.Relation
import WeightedAutomata.Pattern.Compile

namespace WeightedAutomata

namespace Pattern

open Relation

/-! ## Classes of characters -/

/-- An element lists its character, or those between its two ends, in either order. -/
def ClassItem.Lists : ClassItem → Char → Prop
  | one d, c => c = d
  | range first last, c =>
    first.toNat ≤ c.toNat ∧ c.toNat ≤ last.toNat ∨ last.toNat ≤ c.toNat ∧ c.toNat ≤ first.toNat

def CharClass.Lists (members : CharClass) (c : Char) : Prop := ∃ item ∈ members.items, item.Lists c

/-- A class that lists nothing reads nothing, also where it is negated. -/
def CharClass.Reads (members : CharClass) (c : Char) : Prop :=
  if members.negated then (∃ d, members.Lists d) ∧ ¬ members.Lists c else members.Lists c

theorem mem_walk (start stop code : Nat) :
    code ∈ walk start stop ↔ stop < code ∧ code ≤ start ∨ start ≤ code ∧ code < stop := by
  unfold walk
  split
  · simp only [List.mem_map, List.mem_range]
    refine ⟨?_, ?_⟩
    · intro h
      rcases h with ⟨i, hi, rfl⟩
      omega
    · intro h
      exact ⟨start - code, by omega, by omega⟩
  · simp only [List.mem_map, List.mem_range]
    refine ⟨?_, ?_⟩
    · intro h
      rcases h with ⟨i, hi, rfl⟩
      omega
    · intro h
      exact ⟨code - start, by omega, by omega⟩

theorem ClassItem.toNat_mem_codes (item : ClassItem) (c : Char) :
    c.toNat ∈ item.codes ↔ item.Lists c := by
  cases item with
  | one d => simp only [codes, Lists, List.mem_singleton, Char.toNat_inj]
  | range first last =>
    simp only [codes, Lists, List.mem_cons, mem_walk]
    omega

theorem CharClass.toNat_mem_codes (members : CharClass) (c : Char) :
    c.toNat ∈ members.codes ↔ members.Lists c := by
  simp only [codes, Lists, List.mem_flatMap, ClassItem.toNat_mem_codes]

theorem ClassItem.exists_lists (item : ClassItem) : ∃ c, item.Lists c := by
  cases item with
  | one d => exact ⟨d, rfl⟩
  | range first last =>
    refine ⟨first, ?_⟩
    unfold Lists
    omega

/-- A class has code points where it lists a character at all. -/
theorem CharClass.codes_ne_nil (members : CharClass) :
    members.codes ≠ [] ↔ ∃ c, members.Lists c := by
  refine ⟨?_, ?_⟩
  · intro hcodes
    obtain ⟨code, hcode⟩ := List.exists_mem_of_ne_nil _ hcodes
    obtain ⟨item, hitem, -⟩ := List.mem_flatMap.1 hcode
    obtain ⟨c, hc⟩ := item.exists_lists
    exact ⟨c, item, hitem, hc⟩
  · rintro ⟨c, hc⟩ hnil
    rw [← toNat_mem_codes, hnil] at hc
    cases hc

/-! ## Atoms and expressions -/

/-- An atom can be read between two positions. -/
def Atom.Matches (text : List Char) : Atom → Nat → Nat → Prop
  | char c, p, q => text[p]? = some c ∧ q = p + 1
  | any, p, q => p < text.length ∧ q = p + 1
  | oneOf members, p, q => ∃ c, text[p]? = some c ∧ members.Reads c ∧ q = p + 1
  | textStart, p, q => p = 0 ∧ q = 0
  | textEnd, p, q => p = text.length ∧ q = text.length

/-- What a quantifier makes of a relation. -/
def Quantifier.Repeats (R : Nat → Nat → Prop) : Quantifier → Nat → Nat → Prop
  | star => ReflTransGen R
  | plus => TransGen R
  | optional => ReflGen R

/-- An expression can be read between two positions. -/
def Expr.Matches (text : List Char) : Expr → Nat → Nat → Prop
  | empty => (· = ·)
  | atom a => a.Matches text
  | seq first rest => Comp (first.Matches text) (rest.Matches text)
  | quantified q e => q.Repeats (e.Matches text)

end Pattern

end WeightedAutomata
