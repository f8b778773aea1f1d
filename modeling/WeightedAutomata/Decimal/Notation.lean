-- How a binary number is written: always its shortest digits, laid out by a style that
-- says when an exponent is used and whether an integral number keeps a point.
import WeightedAutomata.Decimal.Shortest

namespace WeightedAutomata

namespace Decimal

/-- The choices of a written form. -/
structure Style where
  /-- An integral number is written with `.0` behind it. -/
  pointZero : Bool
  /-- The places of the leading digit that are written without an exponent, the second
  excluded. Without a range no number takes an exponent. -/
  positional : Option (Int × Int)

/-- Reports write numbers in full. -/
def Style.full : Style := ⟨false, none⟩

/-- Messages keep a point, and write an exponent below `0.0001` and from `10 ^ 16` on. -/
def Style.exact : Style := ⟨true, some (-4, 16)⟩

def zeros (count : Nat) : String := String.ofList (List.replicate count '0')

/-- Digits around a decimal point. -/
def inFull (pointZero : Bool) (d : Digits) : String :=
  let text := toString d.digits
  if 0 ≤ d.exponent then text ++ zeros d.exponent.toNat ++ (if pointZero then ".0" else "")
  else
    let places := (-d.exponent).toNat
    let digits := text.toList
    if places < digits.length then
      String.ofList (digits.take (digits.length - places)) ++ "." ++
        String.ofList (digits.drop (digits.length - places))
    else "0." ++ zeros (places - digits.length) ++ text

/-- Digits with the point behind the first of them, and the exponent that this takes. -/
def withExponent (d : Digits) : String :=
  let digits := (toString d.digits).toList
  let exponent := d.exponent + (digits.length : Int) - 1
  let tail := digits.drop 1
  String.ofList (digits.take 1) ++ (if tail.isEmpty then "" else "." ++ String.ofList tail) ++
    "e" ++ toString exponent

/-- The digits of a positive number in a style. -/
def Style.digits (style : Style) (d : Digits) : String :=
  let leading := d.exponent + (digitCount d.digits : Int) - 1
  match style.positional with
  | some (first, beyond) =>
    if first ≤ leading ∧ leading < beyond then inFull style.pointZero d else withExponent d
  | none => inFull style.pointZero d

/-- A number in a style. Zero keeps its sign. -/
def Style.write (style : Style) (x : Float) : String :=
  let sign (negative : Bool) := if negative then "-" else ""
  match Parts.ofFloat x with
  | .nan => "NaN"
  | .infinite negative => sign negative ++ "inf"
  | .finite negative 0 _ => sign negative ++ inFull style.pointZero ⟨0, 0⟩
  | .finite negative significand exponent =>
    sign negative ++ style.digits (shortest significand exponent)

end Decimal

end WeightedAutomata
