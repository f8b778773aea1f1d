-- What an automaton drawn for an expression lets pass. What is drawn for a part has two ports,
-- its entry and its exit, and shares them with the parts around it. So a way through the whole
-- may come back to a port, and go into a part again that it had left.
import WeightedAutomata.Proofs.Pattern.Meaning

namespace WeightedAutomata

namespace Pattern

open Relation

/-! ## Ports and joints -/

/-- The states of a part that the parts around it share. -/
inductive Port where
  | entry
  | exit
  deriving DecidableEq

/-- The ports of a whole, and the state in the middle: the exit of its first part. -/
inductive Joint where
  | entry
  | middle
  | exit
  deriving DecidableEq

namespace Port

/-- The port of a whole as a joint. -/
def outer : Port → Joint
  | entry => .entry
  | exit => .exit

/-- The port of the first part as a joint. -/
def first : Port → Joint
  | entry => .entry
  | exit => .middle

/-- The port of the second part as a joint. -/
def second : Port → Joint
  | entry => .middle
  | exit => .exit

end Port

/-- The joints that a quantifier leads between without reading. A repetition leads back, what
may be left out is led around, and the exit of `plus` is the exit of its part. -/
inductive Quantifier.Skips : Quantifier → Joint → Joint → Prop
  | starBack : Skips star .middle .entry
  | starAround : Skips star .entry .exit
  | plusBack : Skips plus .middle .entry
  | plusOut : Skips plus .middle .exit
  | plusIn : Skips plus .exit .middle
  | optionalOut : Skips optional .middle .exit
  | optionalAround : Skips optional .entry .exit

/-! ## Ways through -/

/-- One part leads from a joint and a position to others. -/
def Leap (joint : Port → Joint) (R : Port × Nat → Port × Nat → Prop) :
    Joint × Nat → Joint × Nat → Prop :=
  Relation.Map R (Prod.map joint id) (Prod.map joint id)

/-- A quantifier leads from a joint to another one at the same position. -/
def Quantifier.Leap (q : Quantifier) (v w : Joint × Nat) : Prop := q.Skips v.1 w.1 ∧ v.2 = w.2

/-- Leaps from one port of a whole to another, in any order. -/
def Leaps (R : Joint × Nat → Joint × Nat → Prop) (v w : Port × Nat) : Prop :=
  ReflTransGen R (v.1.outer, v.2) (w.1.outer, w.2)

/-- There is a way through an expression from a port and a position to others. -/
def Expr.Leads (text : List Char) : Expr → Port × Nat → Port × Nat → Prop
  | empty => fun v w => v.2 = w.2
  | atom a => fun v w => v = w ∨ v.1 = .entry ∧ w.1 = .exit ∧ a.Matches text v.2 w.2
  | seq e e' => Leaps fun v w =>
      Leap Port.first (e.Leads text) v w ∨ Leap Port.second (e'.Leads text) v w
  | quantified q e => Leaps fun v w => Leap Port.first (e.Leads text) v w ∨ q.Leap v w

/-- An expression lets the characters between two positions pass from its entry to its exit. -/
def Expr.Passes (e : Expr) (text : List Char) (start stop : Nat) : Prop :=
  e.Leads text (.entry, start) (.exit, stop)

theorem leap_of {joint : Port → Joint} {R : Port × Nat → Port × Nat → Prop} {v w : Port × Nat}
    (h : R v w) : Leap joint R (joint v.1, v.2) (joint w.1, w.2) := ⟨v, w, h, rfl, rfl⟩

/-! ## What matches passes -/

/-- Coming back to the entry after each round, the way leads through all rounds. -/
theorem rounds_of_reflTransGen {q : Quantifier} {R : Nat → Nat → Prop}
    {S : Joint × Nat → Joint × Nat → Prop} (hback : q.Skips .middle .entry)
    (hround : ∀ p p', R p p' → S (.entry, p) (.middle, p')) {p p' : Nat}
    (h : ReflTransGen R p p') :
    ReflTransGen (fun v w => S v w ∨ q.Leap v w) (.entry, p) (.entry, p') := by
  induction h with
  | refl => exact .refl
  | tail _ hstep ih => exact (ih.tail (Or.inl (hround _ _ hstep))).tail (Or.inr ⟨hback, rfl⟩)

theorem Expr.passes_of_matches {text : List Char} {e : Expr} {p p' : Nat}
    (h : e.Matches text p p') : e.Passes text p p' := by
  induction e generalizing p p' with
  | empty => exact h
  | atom a => exact Or.inr ⟨rfl, rfl, h⟩
  | seq e e' ih ih' =>
    obtain ⟨middle, he, he'⟩ := h
    have hfirst : Leap Port.first (e.Leads text) (.entry, p) (.middle, middle) := leap_of (ih he)
    have hsecond : Leap Port.second (e'.Leads text) (.middle, middle) (.exit, p') :=
      leap_of (ih' he')
    unfold Passes Leads Leaps
    exact .tail (.single (Or.inl hfirst)) (Or.inr hsecond)
  | quantified q e ih =>
    have hround : ∀ p p', e.Matches text p p' →
        Leap Port.first (e.Leads text) (.entry, p) (.middle, p') :=
      fun p p' he => leap_of (ih he)
    unfold Passes Leads Leaps
    cases q with
    | star =>
      have hrounds := rounds_of_reflTransGen Quantifier.Skips.starBack hround h
      exact hrounds.tail (Or.inr ⟨.starAround, rfl⟩)
    | plus =>
      obtain ⟨middle, hbefore, hlast⟩ := TransGen.tail'_iff.1 h
      have hrounds := rounds_of_reflTransGen Quantifier.Skips.plusBack hround hbefore
      exact (hrounds.tail (Or.inl (hround _ _ hlast))).tail (Or.inr ⟨.plusOut, rfl⟩)
    | optional =>
      cases h with
      | refl => exact .single (Or.inr ⟨.optionalAround, rfl⟩)
      | single he =>
        exact .tail (.single (Or.inl (hround _ _ he))) (Or.inr ⟨.optionalOut, rfl⟩)

end Pattern

end WeightedAutomata
