import DepAtlas.Json.Basic
import DepAtlas.Text.Blank
import DepAtlas.Text.Letter

/-! # Relaxed JSON

Configuration files are written by hand in a form of JSON with comments, commas after the last
element, names without quotes, texts in single quotes and a wider choice of numbers.
-/

namespace DepAtlas.Json.Relaxed

/-- A result with what is left to read. -/
abbrev Read (α : Type) := List Char → Option (α × List Char)

def isLineEnd (c : Char) : Bool := c = '\n' || c = '\r' || c = '\u2028' || c = '\u2029'

def isSpace (c : Char) : Bool := (Text.isBlank c && c ≠ '\x85') || c = '\ufeff'

/-- What follows the end of a block comment. -/
def afterBlock? : List Char → Option (List Char)
  | [] => none
  | '*' :: '/' :: rest => some rest
  | _ :: rest => afterBlock? rest

/-- Passes blanks and comments. -/
def skip : Nat → List Char → List Char
  | 0, cs => cs
  | _ + 1, [] => []
  | n + 1, c :: cs =>
    if isSpace c then skip n cs
    else
      match c, cs with
      | '/', '/' :: rest => skip n (rest.dropWhile fun c => !isLineEnd c)
      | '/', '*' :: rest =>
        match afterBlock? rest with
        | some rest => skip n rest
        | none => c :: cs
      | _, _ => c :: cs

def skipAll (cs : List Char) : List Char := skip (cs.length + 1) cs

def hexDigit? (c : Char) : Option Nat :=
  if c.isDigit then some (c.toNat - '0'.toNat)
  else if 'a' ≤ c ∧ c ≤ 'f' then some (c.toNat - 'a'.toNat + 10)
  else if 'A' ≤ c ∧ c ≤ 'F' then some (c.toNat - 'A'.toNat + 10)
  else none

/-- A number of hexadecimal digits, exactly so many. -/
def hexDigits : Nat → Nat → Read Nat
  | 0, value, cs => some (value, cs)
  | _ + 1, _, [] => none
  | n + 1, value, c :: cs =>
    match hexDigit? c with
    | some d => hexDigits n (value * 16 + d) cs
    | none => none

/-- The character with a number, unless the number is that of half a character. -/
def charOf? (n : Nat) : Option Char :=
  if 0xD800 ≤ n ∧ n < 0xE000 then none else some (Char.ofNat n)

/-- What an escape in a text stands for, after its backslash. -/
def escape : Read (List Char)
  | [] => none
  | c :: cs =>
    match c with
    | 'b' => some (['\x08'], cs)
    | 'f' => some (['\x0c'], cs)
    | 'n' => some (['\n'], cs)
    | 'r' => some (['\r'], cs)
    | 't' => some (['\t'], cs)
    | 'v' => some (['\x0b'], cs)
    | '0' => some (['\x00'], cs)
    | 'x' => do
      let (n, cs) ← hexDigits 2 0 cs
      return ([Char.ofNat n], cs)
    | 'u' => do
      let (n, cs) ← hexDigits 4 0 cs
      return ([← charOf? n], cs)
    | '\r' =>
      match cs with
      | '\n' :: rest => some ([], rest)
      | _ => some ([], cs)
    | c => if c.isDigit then none else some (if isLineEnd c then [] else [c], cs)

/-- The text up to the closing quote; `acc` holds what was read, last first. -/
def textTail (quote : Char) : Nat → List Char → Read String
  | 0, _, _ => none
  | _ + 1, _, [] => none
  | n + 1, acc, c :: cs =>
    if c = quote then some (String.ofList acc.reverse, cs)
    else if c = '\\' then do
      let (e, cs) ← escape cs
      textTail quote n (e.reverse ++ acc) cs
    else if isLineEnd c then none
    else textTail quote n (c :: acc) cs

def text : Read String
  | '\x22' :: cs => textTail '\x22' (cs.length + 1) [] cs
  | '\x27' :: cs => textTail '\x27' (cs.length + 1) [] cs
  | _ => none

def isNameStart (c : Char) : Bool :=
  (Text.isAlphanumeric c && !c.isDigit) || c = '$' || c = '_'

def isNamePart (c : Char) : Bool :=
  Text.isAlphanumeric c || c = '$' || c = '_' || c = '\u200c' || c = '\u200d'

def nameTail : Nat → List Char → Read String
  | 0, _, _ => none
  | n + 1, acc, cs =>
    match cs with
    | '\\' :: 'u' :: rest => do
      let (v, rest) ← hexDigits 4 0 rest
      nameTail n ((← charOf? v) :: acc) rest
    | c :: rest =>
      if isNamePart c then nameTail n (c :: acc) rest else some (String.ofList acc.reverse, cs)
    | [] => some (String.ofList acc.reverse, [])

/-- The name of a field. -/
def key (cs : List Char) : Option (String × List Char) :=
  match cs with
  | [] => none
  | '\\' :: _ => nameTail (cs.length + 1) [] cs
  | c :: _ => if isNameStart c then nameTail (cs.length + 1) [] cs else text cs

/-- The digits at the start. -/
def digits (cs : List Char) : List Char × List Char := cs.span Char.isDigit

/-- An exponent, if one follows: whether it is there, and what is left. -/
def exponent (cs : List Char) : Option (Int × List Char) :=
  match cs with
  | 'e' :: rest | 'E' :: rest =>
    let (negative, rest) := match rest with
      | '-' :: r => (true, r)
      | '+' :: r => (false, r)
      | r => (false, r)
    match digits rest with
    | ([], _) => none
    | (ds, rest) =>
      let n : Int := Nat.ofDigitChars 10 ds 0
      some (if negative then -n else n, rest)
  | _ => none

/-- A number made of the digits before and after a point and an exponent. -/
def decimalNumber (negative : Bool) (whole fraction : List Char) (exponent : Int) : Number :=
  let m := Nat.ofDigitChars 10 (whole ++ fraction) 0
  let e := exponent - fraction.length
  let f := Float.ofScientific m (e < 0) e.natAbs
  .float (if negative then -f else f).toBits

/-- A number after its sign. -/
def unsigned (negative : Bool) (cs : List Char) : Option (Number × List Char) :=
  let sign (n : Nat) : Int := if negative then -(n : Int) else n
  let hex (cs : List Char) : Option (Number × List Char) :=
    match cs.span fun c => (hexDigit? c).isSome with
    | ([], _) => none
    | (ds, rest) =>
      some (.int (sign (ds.foldl (fun n c => n * 16 + (hexDigit? c).getD 0) 0)), rest)
  let fromPoint (whole cs : List Char) : Option (Number × List Char) :=
    let (fraction, rest) := digits cs
    if whole = [] ∧ fraction = [] then none
    else
      let (e, rest) := (exponent rest).getD (0, rest)
      some (decimalNumber negative whole fraction e, rest)
  let whole (ds rest : List Char) : Option (Number × List Char) :=
    match rest with
    | '.' :: rest => fromPoint ds rest
    | _ =>
      match exponent rest with
      | some (e, rest) => some (decimalNumber negative ds [] e, rest)
      | none => some (.int (sign (Nat.ofDigitChars 10 ds 0)), rest)
  match cs with
  | '0' :: 'x' :: rest | '0' :: 'X' :: rest => hex rest
  | '0' :: rest => whole ['0'] rest
  | '.' :: rest => fromPoint [] rest
  | c :: _ =>
    if c.isDigit then
      let (ds, rest) := digits cs
      whole ds rest
    else
      (Text.afterPrefix? "Infinity".toList cs).or (Text.afterPrefix? "NaN".toList cs) |>.map
        fun rest => (.float (0.0 / 0.0 : Float).toBits, rest)
  | [] => none

def number : Read Number
  | '-' :: cs => unsigned true cs
  | '+' :: cs => unsigned false cs
  | cs => unsigned false cs

/-- A word of the notation. -/
def word? (cs : List Char) : Option (Json × List Char) :=
  ((Text.afterPrefix? "null".toList cs).map (null, ·)).or <|
    ((Text.afterPrefix? "true".toList cs).map (bool true, ·)).or
      ((Text.afterPrefix? "false".toList cs).map (bool false, ·))

mutual

def value : Nat → Read Json
  | 0, _ => none
  | n + 1, cs =>
    match skipAll cs with
    | '[' :: rest => (items n [] rest).map fun (xs, cs) => (arr xs, cs)
    | '\x7b' :: rest => (fields n [] rest).map fun (fs, cs) => (obj fs, cs)
    | '\x22' :: rest => (text ('\x22' :: rest)).map fun (s, cs) => (str s, cs)
    | '\x27' :: rest => (text ('\x27' :: rest)).map fun (s, cs) => (str s, cs)
    | cs => (word? cs).or ((number cs).map fun (v, cs) => (num v, cs))

/-- The elements up to the end of a list; `acc` holds those read, last first. -/
def items : Nat → List Json → Read (List Json)
  | 0, _, _ => none
  | n + 1, acc, cs =>
    match skipAll cs with
    | ']' :: rest => some (acc.reverse, rest)
    | cs => do
      let (v, cs) ← value n cs
      match skipAll cs with
      | ']' :: rest => return ((v :: acc).reverse, rest)
      | ',' :: rest => items n (v :: acc) rest
      | _ => none

/-- The fields up to the end of an object; `acc` holds those read, last first. -/
def fields : Nat → List (String × Json) → Read (List (String × Json))
  | 0, _, _ => none
  | n + 1, acc, cs =>
    match skipAll cs with
    | '\x7d' :: rest => some (acc.reverse, rest)
    | cs => do
      let (k, cs) ← key cs
      match skipAll cs with
      | ':' :: cs => do
        let (v, cs) ← value n cs
        match skipAll cs with
        | '\x7d' :: rest => return (((k, v) :: acc).reverse, rest)
        | ',' :: rest => fields n ((k, v) :: acc) rest
        | _ => none
      | _ => none

end

/-- The value that a text holds, with the fields of objects as they are written. -/
def read? (s : String) : Option Json := do
  let (v, rest) ← value (2 * s.length + 2) s.toList
  if (skipAll rest).isEmpty then some v else none

end DepAtlas.Json.Relaxed
