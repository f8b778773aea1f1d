-- Text in columns: filled up with blanks to a width, counted in characters. A text that is
-- wider stays as it is.
namespace WeightedAutomata

namespace Text

def blanks (count : Nat) : String := String.ofList (List.replicate count ' ')

/-- Blanks go in front. -/
def alignRight (width : Nat) (text : String) : String := blanks (width - text.length) ++ text

/-- Blanks go behind. -/
def alignLeft (width : Nat) (text : String) : String := text ++ blanks (width - text.length)

end Text

end WeightedAutomata
