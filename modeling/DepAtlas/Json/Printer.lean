import DepAtlas.Json.Basic

/-! # Writing JSON

The compact form holds no blanks. The indented form has one item or field a line and two blanks a
level.
-/

namespace DepAtlas.Json

def hexDigit (n : Nat) : Char := (Nat.digitChar (n % 16))

/-- The escape of a character inside quotes, if it needs one. -/
def escape? (c : Char) : Option (List Char) :=
  match c with
  | '\x22' => some ['\\', '\x22']
  | '\\' => some ['\\', '\\']
  | '\n' => some ['\\', 'n']
  | '\r' => some ['\\', 'r']
  | '\t' => some ['\\', 't']
  | '\x08' => some ['\\', 'b']
  | '\x0c' => some ['\\', 'f']
  | c =>
    if c.toNat < 0x20 then some ['\\', 'u', '0', '0', hexDigit (c.toNat / 16), hexDigit c.toNat]
    else none

def quote (s : String) : String :=
  "\"" ++ String.ofList (s.toList.flatMap fun c => (escape? c).getD [c]) ++ "\""

/-- A decimal with at least one digit on both sides of the point. It is written positionally from
`0.00001` to below ten to the sixteenth, and with a signed exponent otherwise. -/
def decimalText (d : Decimal.Scaled) : String :=
  let digits := (toString d.digits).toList
  let n : Int := digits.length
  let point := n + d.exponent
  if 0 ≤ d.exponent && point ≤ 16 then
    String.ofList (digits ++ List.replicate d.exponent.toNat '0') ++ ".0"
  else if 0 < point && point ≤ 16 then
    String.ofList (digits.take point.toNat) ++ "." ++ String.ofList (digits.drop point.toNat)
  else if -5 < point && point ≤ 0 then
    "0." ++ String.ofList (List.replicate (-point).toNat '0' ++ digits)
  else
    let mantissa := match digits with
      | [] => ""
      | [c] => String.singleton c
      | c :: cs => String.singleton c ++ "." ++ String.ofList cs
    let e := point - 1
    mantissa ++ "e" ++ (if e < 0 then "-" else "+") ++ toString e.natAbs

def Number.text : Number → String
  | .int i => toString i
  | .float bits =>
    (if bits >>> 63 = 1 then "-" else "") ++ decimalText (Decimal.Binary.ofBits bits).shortest

mutual

def compact : Json → String
  | null => "null"
  | bool true => "true"
  | bool false => "false"
  | num n => n.text
  | str s => quote s
  | arr xs => "[" ++ compactItems true xs ++ "]"
  | obj fs => "\x7b" ++ compactFields true fs ++ "\x7d"

def compactItems (first : Bool) : List Json → String
  | [] => ""
  | x :: xs => (if first then "" else ",") ++ compact x ++ compactItems false xs

def compactFields (first : Bool) : List (String × Json) → String
  | [] => ""
  | (k, v) :: fs =>
    (if first then "" else ",") ++ quote k ++ ":" ++ compact v ++ compactFields false fs

end

def indentation (level : Nat) : String :=
  "\n" ++ String.ofList (List.replicate (2 * level) ' ')

mutual

def indented (level : Nat) : Json → String
  | arr (x :: xs) =>
    "[" ++ indentation (level + 1) ++ indented (level + 1) x ++ indentedItems (level + 1) xs ++
      indentation level ++ "]"
  | obj ((k, v) :: fs) =>
    "\x7b" ++ indentation (level + 1) ++ quote k ++ ": " ++ indented (level + 1) v ++
      indentedFields (level + 1) fs ++ indentation level ++ "\x7d"
  | arr [] => "[]"
  | obj [] => "\x7b\x7d"
  | j => compact j

def indentedItems (level : Nat) : List Json → String
  | [] => ""
  | x :: xs => "," ++ indentation level ++ indented level x ++ indentedItems level xs

def indentedFields (level : Nat) : List (String × Json) → String
  | [] => ""
  | (k, v) :: fs =>
    "," ++ indentation level ++ quote k ++ ": " ++ indented level v ++ indentedFields level fs

end

/-- The value with one item or field a line. -/
def pretty (j : Json) : String := indented 0 j

end DepAtlas.Json
