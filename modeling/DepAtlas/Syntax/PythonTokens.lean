import DepAtlas.Syntax.Grammar
import DepAtlas.Syntax.Lexeme

/-! # Tokens of Python

Statements end with a line, and the indentation of the next line opens or closes a block. A comment
that is indented at least as far as a block belongs to it, also after its last statement.
-/

namespace DepAtlas.Syntax.Python

inductive Token where
  | op (text : List Char)
  | glyph (text : List Char)
  | word (text : List Char)
  | identifier
  | number
  | string
  /-- The end of a line. -/
  | lineEnd
  /-- The start of a deeper block on the next line. -/
  | indent
  /-- The end of the innermost block. -/
  | dedent
  /-- The next line continues the innermost block. -/
  | aligned
  /-- A comment line after the last statement of the innermost block that belongs to the block. -/
  | blockComment
  deriving DecidableEq, Repr

def isPythonBlank (c : Char) : Bool :=
  Text.isBlank c || c = '﻿' || c = '⁠' || c = '​'

def isWordChar (c : Char) : Bool :=
  c.isAlphanum || c = '_' || (c.toNat ≥ 0x80 && !isPythonBlank c)

def operators : List (List Char) :=
  ["**=", "//=", ">>=", "<<=", "...", "->", ":=", "==", "!=", "<=", ">=", "<>", "**", "//", "<<",
    ">>", "+=", "-=", "*=", "/=", "%=", "@=", "&=", "|=", "^="].map String.toList

def reserved : List (List Char) :=
  ["False", "None", "True", "and", "as", "assert", "async", "await", "break", "class", "continue",
    "def", "del", "elif", "else", "except", "finally", "for", "from", "global", "if", "import",
    "in", "is", "lambda", "nonlocal", "not", "or", "pass", "raise", "return", "try", "while",
    "with", "yield"].map String.toList

def wordLength : List Char → Nat
  | [] => 0
  | c :: cs => if isWordChar c && !c.isDigit then 1 + Lexeme.countWhile isWordChar cs else 0

def number? : List Char → Option Nat
  | '0' :: x :: cs =>
    if x ∈ ['x', 'X', 'o', 'O', 'b', 'B'] then
      some (2 + Lexeme.countWhile (fun c => c.isAlphanum || c = '_') cs)
    else decimal ('0' :: x :: cs)
  | cs => decimal cs
where
  decimal (cs : List Char) : Option Nat :=
    let whole := Lexeme.countWhile Lexeme.isDigitOrUnderscore cs
    let rest := cs.drop whole
    let fraction := match rest with
      | '.' :: ds => 1 + Lexeme.countWhile Lexeme.isDigitOrUnderscore ds
      | _ => 0
    let startsRight := match cs with
      | c :: _ => c.isDigit || (c = '.' && fraction > 1)
      | [] => false
    if startsRight then
      let n := whole + fraction
      let n := n + exponent (cs.drop n)
      match cs.drop n with
      | c :: _ => some (if c ∈ ['j', 'J', 'l', 'L'] then n + 1 else n)
      | [] => some n
    else none
  exponent : List Char → Nat
    | e :: s :: c :: cs =>
      if !(e = 'e' || e = 'E') then 0
      else if (s = '+' || s = '-') && c.isDigit then
        3 + Lexeme.countWhile Lexeme.isDigitOrUnderscore cs
      else if s.isDigit then 2 + Lexeme.countWhile Lexeme.isDigitOrUnderscore (c :: cs)
      else 0
    | [e, s] => if (e = 'e' || e = 'E') && s.isDigit then 2 else 0
    | _ => 0

/-! ## Strings

A string may have a letter or two in front, one quote or three, and in a formatted string
expressions in braces, which hold strings of their own.
-/

def isStringLetter (c : Char) : Bool :=
  c ∈ ['r', 'R', 'b', 'B', 'u', 'U', 'f', 'F', 't', 'T']

/-- Where the reader is inside a formatted string. -/
inductive Hole where
  /-- Between the holes. -/
  | text
  /-- In an expression, with the number of open brackets. -/
  | expression (brackets : Nat)
  /-- In the format after an expression. -/
  | format
  deriving DecidableEq, Repr

structure OpenString where
  close : List Char
  formatted : Bool
  raw : Bool
  /-- Innermost first. -/
  holes : List Hole
  deriving Repr

/-- The letters, the opening quote and the flags of a string at a position. -/
def stringStart? (cs : List Char) : Option (Nat × OpenString) :=
  let n := Lexeme.countWhile isStringLetter cs
  let letters := cs.take n
  let formatted := letters.any fun c => c ∈ ['f', 'F', 't', 'T']
  let raw := letters.any fun c => c ∈ ['r', 'R']
  if n > 3 then none
  else
    match cs.drop n with
    | q :: rest =>
      if q = '\x22' || q = '\x27' then
        match rest with
        | r :: s :: _ =>
          if r = q && s = q then some (n + 3, ⟨[q, q, q], formatted, raw, [.text]⟩)
          else some (n + 1, ⟨[q], formatted, raw, [.text]⟩)
        | _ => some (n + 1, ⟨[q], formatted, raw, [.text]⟩)
      else none
    | [] => none

/-- The length of the rest of the innermost open string and of all around it. -/
def stringTail? : Nat → List OpenString → List Char → Option Nat
  | _, [], _ => some 0
  | 0, _, _ => none
  | _, _, [] => none
  | n + 1, s :: outer, c :: cs =>
    let set (h : List Hole) : List OpenString := { s with holes := h } :: outer
    match s.holes with
    | .expression k :: holes =>
      if c = '\x7b' || c = '[' || c = '(' then
        (stringTail? n (set (.expression (k + 1) :: holes)) cs).map (· + 1)
      else if (c = '\x7d' || c = ']' || c = ')') && k > 0 then
        (stringTail? n (set (.expression (k - 1) :: holes)) cs).map (· + 1)
      else if c = '\x7d' then (stringTail? n (set holes) cs).map (· + 1)
      else if c = ':' && k = 0 then
        (stringTail? n (set (.format :: holes)) cs).map (· + 1)
      else if c = '\x22' || c = '\x27' then
        match stringStart? (c :: cs) with
        | some (m, inner) =>
          (stringTail? n (inner :: s :: outer) ((c :: cs).drop m)).map (· + m)
        | none => none
      else (stringTail? n (s :: outer) cs).map (· + 1)
    | .format :: holes =>
      if c = '\x7b' then (stringTail? n (set (.expression 0 :: .format :: holes)) cs).map (· + 1)
      else if c = '\x7d' then (stringTail? n (set holes) cs).map (· + 1)
      else (stringTail? n (s :: outer) cs).map (· + 1)
    | _ =>
      match Text.afterPrefix? s.close (c :: cs) with
      | some rest => (stringTail? n outer rest).map (· + s.close.length)
      | none =>
        if c = '\\' then
          match cs with
          | [] => none
          | _ :: ds => (stringTail? n (s :: outer) ds).map (· + 2)
        else if s.formatted && c = '\x7b' then
          match cs with
          | '\x7b' :: ds => (stringTail? n (s :: outer) ds).map (· + 2)
          | _ => (stringTail? n (set (.expression 0 :: s.holes)) cs).map (· + 1)
        else (stringTail? n (s :: outer) cs).map (· + 1)

def string? (cs : List Char) : Option Nat :=
  match stringStart? cs with
  | none => none
  | some (n, s) => (stringTail? (cs.length + 1) [s] (cs.drop n)).map (· + n)

/-! ## Lines -/

/-- The margin between a position and the next token: whether a line ends in it, the indentation
of the next token, that of the first comment line, and whether the text ends there. -/
structure Margin where
  lineEnds : Bool
  indent : Nat
  firstComment : Option Nat
  atEnd : Bool
  deriving Repr

def marginFrom : Nat → Margin → List Char → Margin
  | 0, m, _ => m
  | _, m, [] => { m with lineEnds := true, indent := 0, atEnd := true }
  | n + 1, m, c :: cs =>
    if c = '\n' then marginFrom n { m with lineEnds := true, indent := 0 } cs
    else if c = ' ' then marginFrom n { m with indent := m.indent + 1 } cs
    else if c = '\r' || c = '\x0c' then marginFrom n { m with indent := 0 } cs
    else if c = '\t' then marginFrom n { m with indent := m.indent + 8 } cs
    else if c = '#' then
      let m' := if m.lineEnds then { m with firstComment := m.firstComment <|> some m.indent }
        else m
      marginFrom n m' ((c :: cs).drop (Lexeme.countWhile (· ≠ '\n') (c :: cs)))
    else if c = '\\' then
      match cs with
      | '\n' :: ds => marginFrom n m ds
      | '\r' :: '\n' :: ds => marginFrom n m ds
      | _ => m
    else m

def margin (cs : List Char) : Margin :=
  marginFrom (cs.length + 1) ⟨false, 0, none, false⟩ cs

def currentIndent (c : Cursor) : Nat := c.layout.indents.headD 0

/-- Whether the block at the cursor ends there. -/
def dedents (c : Cursor) : Bool :=
  let m := margin c.rest
  let current := currentIndent c
  m.lineEnds && m.indent < current &&
    match m.firstComment with
    | some k => k < current
    | none => true

/-- The length of the blanks and the comment line that follow, if the comment belongs to the
block at the cursor and a shallower line comes after it. -/
def blockComment? (c : Cursor) : Option Nat :=
  let m := margin c.rest
  let current := currentIndent c
  match m.firstComment with
  | some k =>
    if m.indent < current && k ≥ current then
      let sameLine := Lexeme.countWhile (fun x => x ≠ '\n') c.rest
      let below := c.rest.drop sameLine
      let blanks := Lexeme.countWhile isPythonBlank below
      some (sameLine + blanks + Lexeme.countWhile (fun x => x ≠ '\n') (below.drop blanks))
    else none
  | none => none

def scan (t : Token) (c : Cursor) : Option (Nat × Layout) :=
  let cs := c.rest
  let plain (n : Option Nat) : Option (Nat × Layout) := n.map fun n => (n, c.layout)
  match t with
  | .op text => plain (Lexeme.operator? operators text cs)
  | .glyph text => plain (Lexeme.exactly? text cs)
  | .word text => plain (Lexeme.word? isWordChar text cs)
  | .identifier =>
    let n := wordLength cs
    if n = 0 || reserved.contains (cs.take n) then none else some (n, c.layout)
  | .number => plain (number? cs)
  | .string => plain (string? cs)
  | .lineEnd => if (margin cs).lineEnds then some (0, c.layout) else none
  | .indent =>
    let m := margin cs
    if m.lineEnds && m.indent > currentIndent c && !m.atEnd then
      some (0, { c.layout with indents := m.indent :: c.layout.indents })
    else none
  | .dedent =>
    if dedents c then some (0, { c.layout with indents := c.layout.indents.tail }) else none
  | .aligned =>
    let m := margin cs
    if !m.atEnd && m.indent ≥ currentIndent c then some (0, c.layout) else none
  | .blockComment => plain (blockComment? c)

def glued : Token → Bool
  | .lineEnd | .indent | .dedent | .aligned | .blockComment => true
  | _ => false

end DepAtlas.Syntax.Python
