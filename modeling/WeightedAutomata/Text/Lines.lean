-- The lines of a byte stream. A line ends in a line feed, which may have one carriage
-- return before it. What follows the last line feed is a line too, unless it is empty.
namespace WeightedAutomata

namespace Text

/-- Byte lines with their line ends taken off. `line` holds the bytes of the current line,
last first. -/
def splitLines (line : List UInt8) : List UInt8 → List (List UInt8)
  | [] => if line.isEmpty then [] else [line.reverse]
  | byte :: bytes =>
    if byte = 0x0A then
      let ended := match line with
        | 0x0D :: before => before
        | whole => whole
      ended.reverse :: splitLines [] bytes
    else splitLines (byte :: line) bytes

/-- The text of bytes, if they are one in UTF-8. -/
def decode? (bytes : List UInt8) : Option String := String.fromUTF8? ⟨bytes.toArray⟩

/-- The texts of lines up to the first that has none, and whether there is one. -/
def decodeLines : List (List UInt8) → List String × Bool
  | [] => ([], false)
  | line :: lines =>
    match decode? line with
    | none => ([], true)
    | some text =>
      let (texts, spoilt) := decodeLines lines
      (text :: texts, spoilt)

/-- The readable lines of a byte stream, and whether an unreadable one ended them. -/
def lines (bytes : List UInt8) : List String × Bool := decodeLines (splitLines [] bytes)

end Text

end WeightedAutomata
