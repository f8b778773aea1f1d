-- The shortest decimal that reads back as a given binary number. The number stands for
-- all reals that round to it, and the decimal is the one on the coarsest grid of powers
-- of ten that lies among them.
namespace WeightedAutomata

namespace Decimal

/-! ## Binary numbers -/

/-- A 64-bit number taken apart. A finite value is `significand * 2 ^ exponent`. -/
inductive Parts where
  | nan
  | infinite (negative : Bool)
  | finite (negative : Bool) (significand : Nat) (exponent : Int)
  deriving DecidableEq

/-- The leading bit of a significand, which only the smallest numbers lack. -/
def leadingBit : Nat := 1 <<< 52

/-- The parts that the bits of a number spell: the sign, eleven bits of exponent and
fifty-two bits of fraction. -/
def Parts.ofBits (bits : Nat) : Parts :=
  let negative := bits >>> 63 % 2 == 1
  let exponent : Nat := bits >>> 52 % 2048
  let fraction : Nat := bits % leadingBit
  if exponent = 2047 then
    if fraction = 0 then infinite negative else nan
  else if exponent = 0 then finite negative fraction (-1074)
  else finite negative (leadingBit + fraction) ((exponent : Int) - 1075)

def Parts.ofFloat (x : Float) : Parts := ofBits x.toBits.toNat

/-! ## The grid search -/

/-- The decimal `digits * 10 ^ exponent`. -/
structure Digits where
  digits : Nat
  exponent : Int
  deriving DecidableEq

/-- Four times a positive binary number and the ends of the interval of reals that round
to it, all on one scale. The ends belong to the interval when the significand is even.
Below a power of two the gap to the next smaller number is half as wide. -/
structure Interval where
  low : Nat
  value : Nat
  high : Nat
  closed : Bool

/-- The interval of `significand * 2 ^ exponent`, in units of `2 ^ (exponent - 2)`. -/
def Interval.of (significand : Nat) (exponent : Int) : Interval where
  low :=
    if significand = leadingBit ∧ exponent ≠ -1074 then 4 * significand - 1
    else 4 * significand - 2
  value := 4 * significand
  high := 4 * significand + 2
  closed := significand % 2 == 0

def Interval.scale (i : Interval) (factor : Nat) : Interval :=
  { i with low := i.low * factor, value := i.value * factor, high := i.high * factor }

def Interval.holds (i : Interval) (x : Nat) : Bool :=
  if i.closed then decide (i.low ≤ x) && decide (x ≤ i.high)
  else decide (i.low < x) && decide (x < i.high)

/-- The multiple of `gap` in the interval next to the value: of two the nearer, and of two
equally near the larger. -/
def Interval.nearest? (i : Interval) (gap : Nat) : Option Nat :=
  let below := i.value / gap
  let above := below + 1
  match decide (0 < below) && i.holds (below * gap), i.holds (above * gap) with
  | true, true => some (if i.value - below * gap < above * gap - i.value then below else above)
  | true, false => some below
  | false, true => some above
  | false, false => none

/-- A power of ten. -/
def tenTo (places : Nat) : Nat := Nat.pow 10 places

/-- The point of the grid of multiples of `10 ^ place` that reads back, if one does. -/
def onGrid? (significand : Nat) (exponent : Int) (place : Int) : Option Digits :=
  let binary := exponent - 2
  let interval := (Interval.of significand exponent).scale (tenTo (-place).toNat <<< binary.toNat)
  (interval.nearest? (tenTo place.toNat <<< (-binary).toNat)).map fun digits => ⟨digits, place⟩

/-- How many digits a natural number has, zero having none. -/
def digitCount (n : Nat) : Nat := if n = 0 then 0 else (Nat.toDigits 10 n).length

/-- The place of the leading digit of `significand * 2 ^ exponent`. -/
def leadingPlace (significand : Nat) (exponent : Int) : Int :=
  let top := significand <<< exponent.toNat
  let bottom := 1 <<< (-exponent).toNat
  if bottom ≤ top then (digitCount (top / bottom) : Int) - 1
  else -(digitCount ((bottom - 1) / top) : Int)

/-- Moves factors of ten from the digits to the exponent, at most `fuel` of them. -/
def Digits.strip : Nat → Digits → Digits
  | 0, d => d
  | fuel + 1, d =>
    if d.digits ≠ 0 ∧ d.digits % 10 = 0 then strip fuel ⟨d.digits / 10, d.exponent + 1⟩ else d

/-- The decimal of fewest digits that reads back as a positive binary number. Seventeen
digits are always enough. -/
def shortest (significand : Nat) (exponent : Int) : Digits :=
  let top := leadingPlace significand exponent
  let found := (List.range 18).findSome? fun (k : Nat) => onGrid? significand exponent (top - k)
  (found.getD ⟨0, 0⟩).strip 18

end Decimal

end WeightedAutomata
