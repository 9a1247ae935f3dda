import DepAtlas.Syntax.Grammar
import DepAtlas.Syntax.Lexeme

/-! # Tokens of Rust -/

namespace DepAtlas.Syntax.Rust

inductive Token where
  | op (text : List Char)
  | glyph (text : List Char)
  | word (text : List Char)
  /-- A word that is not reserved. -/
  | identifier
  /-- A word that is no keyword inside the tokens of a macro. -/
  | looseIdentifier
  /-- A keyword inside the tokens of a macro. -/
  | looseKeyword
  | primitive
  | integer
  | float
  /-- A place in a tuple. -/
  | index
  | string
  | rawString
  | char
  /-- The mark in front of a lifetime. -/
  | tick
  /-- A name that a macro substitutes. -/
  | metavariable
  /-- An operator or a separator inside the tokens of a macro. -/
  | punctuation
  /-- The first line of a script. -/
  | shebang
  /-- What separates the copies of a repeated group of tokens. -/
  | separator
  deriving DecidableEq, Repr

def isRustBlank (c : Char) : Bool := Text.isBlank c || c = '﻿'

def isWordChar (c : Char) : Bool :=
  c.isAlphanum || c = '_' || (c.toNat ≥ 0x80 && !isRustBlank c)

def operators : List (List Char) :=
  ["<<=", ">>=", "..=", "...", "&&", "||", "<<", ">>", "+=", "-=", "*=", "/=", "%=", "^=", "&=",
    "|=", "==", "!=", "<=", ">=", "->", "=>", "::", ".."].map String.toList

def reserved : List (List Char) :=
  ["as", "async", "await", "break", "const", "continue", "crate", "dyn", "else", "enum", "extern",
    "false", "fn", "for", "if", "impl", "in", "let", "loop", "match", "mod", "move", "mut", "pub",
    "ref", "return", "self", "static", "struct", "super", "trait", "true", "type", "unsafe", "use",
    "where", "while"].map String.toList

def looseKeywords : List (List Char) :=
  ["as", "async", "await", "break", "const", "continue", "default", "enum", "fn", "for", "gen",
    "if", "impl", "let", "loop", "match", "mod", "pub", "return", "static", "struct", "trait",
    "type", "union", "unsafe", "use", "where", "while", "_"].map String.toList

def primitives : List (List Char) :=
  ["u8", "i8", "u16", "i16", "u32", "i32", "u64", "i64", "u128", "i128", "isize", "usize", "f32",
    "f64", "bool", "str", "char"].map String.toList

/-- The words that are constructs of their own inside the tokens of a macro. -/
def looseConstructs : List (List Char) :=
  ["self", "super", "crate", "mut", "true", "false"].map String.toList

def plainWordLength : List Char → Nat
  | [] => 0
  | c :: cs => if isWordChar c && !c.isDigit then 1 + Lexeme.countWhile isWordChar cs else 0

/-- The length of a word; a raw word has its mark in front. -/
def wordLength : List Char → Nat
  | 'r' :: '#' :: cs =>
    match plainWordLength cs with
    | 0 => 1
    | n + 1 => n + 3
  | cs => plainWordLength cs

def positive? (n : Nat) : Option Nat := if n = 0 then none else some n

/-- A number without a point; letters after the digits are its base or its type. -/
def integer? (cs : List Char) : Option Nat :=
  match cs with
  | c :: _ => if c.isDigit then some (Lexeme.countWhile isWordChar cs) else none
  | [] => none

def exponentLength : List Char → Nat
  | e :: s :: c :: cs =>
    if !(e = 'e' || e = 'E') then 0
    else if (s = '+' || s = '-') && c.isDigit then
      3 + Lexeme.countWhile Lexeme.isDigitOrUnderscore cs
    else if s.isDigit then 2 + Lexeme.countWhile Lexeme.isDigitOrUnderscore (c :: cs)
    else 0
  | [e, s] => if (e = 'e' || e = 'E') && s.isDigit then 2 else 0
  | _ => 0

/-- A number with a point or an exponent. A point before a name or another point belongs to what
follows. -/
def float? (cs : List Char) : Option Nat :=
  let n := Lexeme.countWhile Lexeme.isDigitOrUnderscore cs
  match cs with
  | c :: _ =>
    if !c.isDigit then none
    else
      match cs.drop n with
      | '.' :: rest =>
        let fraction := match rest with
          | [] => some 0
          | d :: _ =>
            if d.isDigit then some (Lexeme.countWhile Lexeme.isDigitOrUnderscore rest)
            else if d = '.' || isWordChar d then none
            else some 0
        fraction.map fun f =>
          let m := n + 1 + f
          let m := m + exponentLength (cs.drop m)
          m + Lexeme.countWhile isWordChar (cs.drop m)
      | rest =>
        match exponentLength rest with
        | 0 => none
        | e + 1 =>
          let m := n + e + 1
          some (m + Lexeme.countWhile isWordChar (cs.drop m))
  | [] => none

def string? : List Char → Option Nat
  | '\x22' :: cs => (Lexeme.quotedTail? '\x22' cs).map (· + 1)
  | c :: '\x22' :: cs =>
    if c = 'b' || c = 'c' then (Lexeme.quotedTail? '\x22' cs).map (· + 2) else none
  | _ => none

def rawTail? (lead : Nat) (cs : List Char) : Option Nat :=
  let hashes := Lexeme.countWhile (· = '#') cs
  match cs.drop hashes with
  | '\x22' :: rest =>
    (Lexeme.through? ('\x22' :: List.replicate hashes '#') rest).map (· + (lead + hashes + 1))
  | _ => none

def rawString? : List Char → Option Nat
  | 'r' :: cs => rawTail? 1 cs
  | 'b' :: 'r' :: cs => rawTail? 2 cs
  | 'c' :: 'r' :: cs => rawTail? 2 cs
  | _ => none

def charTail? : List Char → Option Nat
  | '\\' :: 'u' :: cs => (Lexeme.through? ['\x7d', '\x27'] cs).map (· + 2)
  | '\\' :: 'x' :: _ :: _ :: '\x27' :: _ => some 5
  | '\\' :: _ :: '\x27' :: _ => some 3
  | c :: '\x27' :: _ => if c = '\x27' || c = '\\' then none else some 2
  | _ => none

def char? : List Char → Option Nat
  | '\x27' :: cs => (charTail? cs).map (· + 1)
  | 'b' :: '\x27' :: cs => (charTail? cs).map (· + 2)
  | _ => none

def punctuationMarks : List (List Char) :=
  ["<<=", ">>=", "..=", "...", "&&", "||", "<<", ">>", "+=", "-=", "*=", "/=", "%=", "^=", "&=",
    "|=", "==", "!=", "<=", ">=", "->", "=>", "::", "..", "+", "-", "*", "/", "%", "^", "!", "&",
    "|", "=", ">", "<", "@", ".", ",", ";", ":", "#", "?", "~"].map String.toList

def scanLength (t : Token) (cs : List Char) : Option Nat :=
  match t with
  | .op text => Lexeme.operator? operators text cs
  | .glyph text => Lexeme.exactly? text cs
  | .word text => Lexeme.word? isWordChar text cs
  | .identifier =>
    let n := wordLength cs
    if n = 0 || reserved.contains (cs.take n) then none else some n
  | .looseIdentifier =>
    let n := wordLength cs
    let w := cs.take n
    if n = 0 || looseKeywords.contains w || looseConstructs.contains w || primitives.contains w
      then none else some n
  | .looseKeyword =>
    let n := wordLength cs
    if looseKeywords.contains (cs.take n) then positive? n else none
  | .primitive =>
    let n := wordLength cs
    if primitives.contains (cs.take n) then positive? n else none
  | .integer => integer? cs
  | .float => float? cs
  | .index => positive? (Lexeme.countWhile Char.isDigit cs)
  | .string => string? cs
  | .rawString => rawString? cs
  | .char => char? cs
  | .tick =>
    match cs with
    | '\x27' :: rest => if (charTail? rest).isSome || plainWordLength rest = 0 then none else some 1
    | _ => none
  | .metavariable =>
    match cs with
    | '$' :: rest => (positive? (plainWordLength rest)).map (· + 1)
    | _ => none
  | .punctuation => (punctuationMarks.find? fun p => (Text.afterPrefix? p cs).isSome).map List.length
  | .shebang =>
    match cs with
    | '#' :: '!' :: c :: _ => if c = '[' then none else some (Lexeme.lineLength cs)
    | _ => none
  | .separator => positive? (Lexeme.countWhile (fun c => c ≠ '+' && c ≠ '*' && c ≠ '?') cs)

def scan (t : Token) (c : Cursor) : Option (Nat × Layout) :=
  (scanLength t c.rest).map fun n => (n, c.layout)

/-- The length of the rest of a comment that may hold others, `depth` of which are open. -/
def nestedCommentLength : Nat → List Char → Nat
  | 0, _ => 0
  | _, [] => 0
  | d + 1, '/' :: '*' :: cs => nestedCommentLength (d + 2) cs + 2
  | d + 1, '*' :: '/' :: cs => nestedCommentLength d cs + 2
  | d + 1, _ :: cs => nestedCommentLength (d + 1) cs + 1

end DepAtlas.Syntax.Rust
