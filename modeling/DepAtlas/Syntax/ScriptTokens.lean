import DepAtlas.Syntax.Grammar
import DepAtlas.Syntax.Lexeme

/-! # Tokens of JavaScript and TypeScript

The lexemes the script grammar is built from, and where they stand. A statement may end without
a semicolon where the next line cannot continue it.
-/

namespace DepAtlas.Syntax.Script

inductive Token where
  /-- An operator that is not the start of a longer one. -/
  | op (text : List Char)
  /-- Any text. -/
  | glyph (text : List Char)
  /-- Any text, with no blank before it. -/
  | tight (text : List Char)
  | word (text : List Char)
  /-- A word that is not reserved. -/
  | identifier
  /-- Any word. -/
  | name
  | privateName
  | number
  | string
  | regex
  /-- Template text up to the next substitution or the closing quote. -/
  | templateText
  /-- A name in markup, which may hold dashes. -/
  | tagName
  /-- Text between markup tags. -/
  | tagText
  /-- A quoted attribute value; it may span lines and holds no escapes. -/
  | tagString
  | hashBang
  /-- The end of a statement without a semicolon. -/
  | softEnd
  /-- The same where a bracket cannot continue what was read. -/
  | softEndType
  /-- The next token is on this line, or line ends have no meaning here. -/
  | sameLine
  deriving DecidableEq, Repr

def isScriptBlank (c : Char) : Bool :=
  Text.isBlank c || c = '﻿' || c = '⁠' || c = '​'

def isWordChar (c : Char) : Bool :=
  c.isAlphanum || c = '_' || c = '$' || c = '\\' || (c.toNat ≥ 0x7F && !isScriptBlank c)

def isWordStart (c : Char) : Bool := isWordChar c && !c.isDigit

/-- The length of the word at a position; zero if there is none. A braced code point escape is
part of the word. -/
def wordLength : List Char → Nat
  | [] => 0
  | '\\' :: 'u' :: '\x7b' :: cs =>
    match Lexeme.through? ['\x7d'] cs with
    | none => 0
    | some n => n + 3 + Lexeme.countWhile isWordChar (cs.drop n)
  | c :: cs => if isWordStart c then 1 + Lexeme.countWhile isWordChar cs else 0

def operators : List (List Char) :=
  [">>>=", "...", "===", "!==", "**=", "<<=", ">>=", ">>>", "&&=", "||=", "??=", "=>", "==", "!=",
    "<=", ">=", "&&", "||", "??", "?.", "++", "--", "+=", "-=", "*=", "/=", "%=", "&=", "|=", "^=",
    "<<", ">>", "**"].map String.toList

def reserved : List (List Char) :=
  ["await", "break", "case", "catch", "class", "const", "continue", "debugger", "default", "delete",
    "do", "else", "enum", "export", "extends", "false", "finally", "for", "function", "if",
    "import", "in", "instanceof", "new", "null", "return", "super", "switch", "this", "throw",
    "true", "try", "typeof", "undefined", "var", "void", "while", "with", "yield"].map String.toList

/-- An optional chain mark before a digit is the mark of a conditional. -/
def operator? (text : List Char) : List Char → Option Nat
  | '?' :: '.' :: c :: cs =>
    if c.isDigit then (if text = ['?'] then some 1 else none)
    else Lexeme.operator? operators text ('?' :: '.' :: c :: cs)
  | cs => Lexeme.operator? operators text cs

def digitsThen (suffix : Char → Bool) (p : Char → Bool) (cs : List Char) : Nat :=
  let n := Lexeme.countWhile p cs
  match cs.drop n with
  | c :: _ => if suffix c then n + 1 else n
  | [] => n

/-- An exponent after a decimal, with its sign. -/
def exponentLength : List Char → Nat
  | e :: s :: c :: cs =>
    if (e = 'e' || e = 'E') && (s = '+' || s = '-') && c.isDigit then
      3 + Lexeme.countWhile Lexeme.isDigitOrUnderscore cs
    else if (e = 'e' || e = 'E') && s.isDigit then
      2 + Lexeme.countWhile Lexeme.isDigitOrUnderscore (c :: cs)
    else 0
  | [e, s] => if (e = 'e' || e = 'E') && s.isDigit then 2 else 0
  | _ => 0

def fractionLength : List Char → Nat
  | '.' :: cs => 1 + Lexeme.countWhile Lexeme.isDigitOrUnderscore cs
  | _ => 0

def isBig (c : Char) : Bool := c = 'n'

def number? : List Char → Option Nat
  | '0' :: x :: cs =>
    if x = 'x' || x = 'X' then
      some (2 + digitsThen isBig (fun c => Lexeme.isHexDigit c || c = '_') cs)
    else if x = 'o' || x = 'O' || x = 'b' || x = 'B' then
      some (2 + digitsThen isBig Lexeme.isDigitOrUnderscore cs)
    else decimal ('0' :: x :: cs)
  | '.' :: c :: cs =>
    if c.isDigit then
      let n := 1 + Lexeme.countWhile Lexeme.isDigitOrUnderscore (c :: cs)
      some (n + exponentLength (('.' :: c :: cs).drop n))
    else none
  | cs => decimal cs
where
  decimal (cs : List Char) : Option Nat :=
    match cs with
    | [] => none
    | c :: _ =>
      if c.isDigit then
        let n := Lexeme.countWhile Lexeme.isDigitOrUnderscore cs
        match cs.drop n with
        | 'n' :: _ => some (n + 1)
        | rest =>
          let m := fractionLength rest
          some (n + m + exponentLength (rest.drop m))
      else none

/-- The rest of a regular expression; `inClass` tells whether a bracket is open. -/
def regexTail? (inClass : Bool) : List Char → Option Nat
  | [] => none
  | '\\' :: _ :: cs => (regexTail? inClass cs).map (· + 2)
  | c :: cs =>
    if c = '\n' then none
    else if c = '[' then (regexTail? true cs).map (· + 1)
    else if c = ']' then (regexTail? false cs).map (· + 1)
    else if c = '/' && !inClass then some (1 + Lexeme.countWhile Char.isAlpha cs)
    else (regexTail? inClass cs).map (· + 1)

def regex? : List Char → Option Nat
  | '/' :: c :: cs => if c = '/' || c = '*' then none else (regexTail? false (c :: cs)).map (· + 1)
  | _ => none

def string? : List Char → Option Nat
  | c :: cs => if c = '\x22' || c = '\x27' then (Lexeme.quotedTail? c cs).map (· + 1) else none
  | [] => none

def templateTextLength : List Char → Nat
  | '\\' :: _ :: cs => templateTextLength cs + 2
  | '$' :: '\x7b' :: _ => 0
  | '\x60' :: _ => 0
  | _ :: cs => templateTextLength cs + 1
  | [] => 0

def positive? (n : Nat) : Option Nat := if n = 0 then none else some n

/-- Whether a line end comes before the next token. -/
def lineEndAhead (n : Nat) (cs : List Char) : Bool :=
  match n, cs with
  | 0, _ => false
  | _, [] => false
  | n + 1, '/' :: '/' :: rest => lineEndAhead n (rest.drop (Lexeme.lineLength rest))
  | n + 1, '/' :: '*' :: rest =>
    let k := Lexeme.blockCommentLength ('/' :: '*' :: rest)
    ((('/' :: '*' :: rest).take k).any (· = '\n')) || lineEndAhead n (('/' :: '*' :: rest).drop k)
  | n + 1, c :: rest =>
    if c = '\n' || c = ' ' || c = ' ' then true
    else if isScriptBlank c then lineEndAhead n rest
    else false

/-- What follows all blanks and comments. -/
def afterBlanks (n : Nat) (cs : List Char) : List Char :=
  match n, cs with
  | 0, cs => cs
  | n + 1, '/' :: '/' :: rest => afterBlanks n (rest.drop (Lexeme.lineLength rest))
  | n + 1, '/' :: '*' :: rest =>
    afterBlanks n (('/' :: '*' :: rest).drop (Lexeme.blockCommentLength ('/' :: '*' :: rest)))
  | n + 1, c :: rest => if isScriptBlank c then afterBlanks n rest else c :: rest
  | _ + 1, [] => []

/-- Whether the text after a line end cannot continue a statement. -/
def startsAfresh (brackets : Bool) : List Char → Bool
  | [] => true
  | '.' :: c :: _ => c.isDigit
  | '+' :: c :: _ => c = '+'
  | '-' :: c :: _ => c = '-'
  | '!' :: c :: _ => c ≠ '='
  | 'i' :: 'n' :: cs =>
    match cs with
    | [] => false
    | c :: _ =>
      if !isWordChar c then false
      else (Lexeme.word? isWordChar "stanceof".toList cs).isNone
  | c :: _ =>
    if c = '(' || c = '[' then !brackets
    else !("\x60,:;*%><=?^|&/.+-!".toList.contains c)

/-- Whether a statement may end here without a semicolon. -/
def softEnd (brackets : Bool) (cs : List Char) : Bool :=
  let n := cs.length
  match afterBlanks n cs with
  | [] => true
  | '\x7d' :: _ => true
  | rest => lineEndAhead n cs && startsAfresh brackets rest

def scanLength (t : Token) (c : Cursor) : Option Nat :=
  let cs := c.rest
  match t with
  | .op text => operator? text cs
  | .glyph text => Lexeme.exactly? text cs
  | .tight text => Lexeme.exactly? text cs
  | .word text => Lexeme.word? isWordChar text cs
  | .identifier =>
    let n := wordLength cs
    if n = 0 || reserved.contains (cs.take n) then none else some n
  | .name => positive? (wordLength cs)
  | .privateName =>
    match cs with
    | '#' :: rest => (positive? (wordLength rest)).map (· + 1)
    | _ => none
  | .number => number? cs
  | .string => string? cs
  | .regex => regex? cs
  | .templateText => positive? (templateTextLength cs)
  | .tagName =>
    match cs with
    | d :: _ => if isWordStart d then some (Lexeme.countWhile (fun x => isWordChar x || x = '-') cs)
      else none
    | [] => none
  | .tagText => positive? (Lexeme.countWhile (fun x => x ≠ '<' && x ≠ '\x7b') cs)
  | .tagString =>
    match cs with
    | q :: rest =>
      if q = '\x22' || q = '\x27' then (Lexeme.through? [q] rest).map (· + 1) else none
    | [] => none
  | .hashBang =>
    match cs with
    | '#' :: '!' :: _ => some (Lexeme.lineLength cs)
    | _ => none
  | .softEnd => if softEnd true cs then some 0 else none
  | .softEndType => if softEnd false cs then some 0 else none
  | .sameLine => if c.layout.enclosed || !lineEndAhead cs.length cs then some 0 else none

def scan (t : Token) (c : Cursor) : Option (Nat × Layout) :=
  (scanLength t c).map fun n => (n, c.layout)

/-- The tokens that look at the very next character. -/
def glued : Token → Bool
  | .tight _ | .templateText | .tagText | .hashBang | .softEnd | .softEndType | .sameLine => true
  | _ => false

end DepAtlas.Syntax.Script
