import DepAtlas.Text.Blank

/-! # Lexemes

Measures on the text at a position: how many characters a lexeme takes there, if it stands there.
-/

namespace DepAtlas.Syntax.Lexeme

/-- The number of leading characters that satisfy `p`. -/
def countWhile (p : Char → Bool) : List Char → Nat
  | [] => 0
  | c :: cs => if p c then countWhile p cs + 1 else 0

/-- The length of `text`, if it stands at the position. -/
def exactly? (text cs : List Char) : Option Nat :=
  (Text.afterPrefix? text cs).map fun _ => text.length

/-- The length of `text`, if no longer word of `operators` stands at the position. -/
def operator? (operators : List (List Char)) (text cs : List Char) : Option Nat :=
  match Text.afterPrefix? text cs with
  | none => none
  | some _ =>
    if operators.any fun o => text.length < o.length && (Text.afterPrefix? o cs).isSome then none
    else some text.length

/-- The length of the word `text`, if it is not part of a longer word. -/
def word? (inWord : Char → Bool) (text cs : List Char) : Option Nat :=
  match Text.afterPrefix? text cs with
  | none => none
  | some [] => some text.length
  | some (c :: _) => if inWord c then none else some text.length

/-- Characters up to and including a closing `quote`; a backslash guards the next character. -/
def quotedTail? (quote : Char) : List Char → Option Nat
  | [] => none
  | '\\' :: _ :: cs => (quotedTail? quote cs).map (· + 2)
  | c :: cs => if c = quote then some 1 else (quotedTail? quote cs).map (· + 1)

/-- Characters up to and including the first occurrence of `mark`. -/
def through? (mark : List Char) : List Char → Option Nat
  | [] => if mark = [] then some 0 else none
  | c :: cs =>
    match Text.afterPrefix? mark (c :: cs) with
    | some _ => some mark.length
    | none => (through? mark cs).map (· + 1)

/-- Characters up to the end of the line. -/
def lineLength (cs : List Char) : Nat :=
  countWhile (fun c => c ≠ '\n' && c ≠ '\r') cs

/-- The length of a block comment; an unclosed one takes the rest. -/
def blockCommentLength (cs : List Char) : Nat :=
  match through? ['*', '/'] (cs.drop 2) with
  | some n => n + 2
  | none => cs.length

def isHexDigit (c : Char) : Bool :=
  c.isDigit || ('a' ≤ c && c ≤ 'f') || ('A' ≤ c && c ≤ 'F')

def isDigitOrUnderscore (c : Char) : Bool := c.isDigit || c = '_'

end DepAtlas.Syntax.Lexeme
