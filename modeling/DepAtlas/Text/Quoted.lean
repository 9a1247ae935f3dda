import DepAtlas.Text.Blank

/-! # Quoted text -/

namespace DepAtlas.Text

/-- The characters that may enclose a quoted text. -/
def isQuote (c : Char) : Bool := c = '\x22' || c = '\x27' || c = '\x60'

/-- The text between a pair of equal quotes. Escapes stay as they are written. -/
def unquote? (s : String) : Option String :=
  match (trim s).toList with
  | [] | [_] => none
  | c :: d :: cs =>
    if isQuote c && (d :: cs).getLast? = some c then some (String.ofList (d :: cs).dropLast)
    else none

end DepAtlas.Text
