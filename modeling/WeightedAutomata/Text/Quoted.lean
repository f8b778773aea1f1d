-- Text in quotes, as messages show it. What has no sign of its own is spelt out.
import WeightedAutomata.Text.Graphic

namespace WeightedAutomata

namespace Text

/-- One character between quotes. A character that is not graphic is given by its code
point in hexadecimal, and the most common ones by a letter. -/
def escape (c : Char) : String :=
  match c with
  | '\x00' => "\\0"
  | '\t' => "\\t"
  | '\r' => "\\r"
  | '\n' => "\\n"
  | '\\' => "\\\\"
  | '"' => "\\\""
  | _ =>
    if isGraphic c then String.singleton c
    else "\\u\x7b" ++ String.ofList (Nat.toDigits 16 c.toNat) ++ "\x7d"

/-- A text between quotes. -/
def quoted (text : String) : String := "\"" ++ String.join (text.toList.map escape) ++ "\""

end Text

end WeightedAutomata
