import DepAtlas.Json.Basic

/-! # Reading JSON

The first fault of a text that is not JSON is reported with the line and the column, in bytes, where
it shows.
-/

namespace DepAtlas.Json

/-- What is wrong with a text. -/
inductive Fault where
  | endInList | endInObject | endInString | endInValue
  | expectedColon | expectedListEnd | expectedObjectEnd | expectedIdent | expectedValue
  | invalidEscape | invalidNumber | numberOutOfRange | controlCharacter | keyNotString
  | loneSurrogate | trailingComma | trailingCharacters | unfinishedHexEscape | tooDeep
  deriving DecidableEq, Repr

def Fault.message : Fault → String
  | endInList => "EOF while parsing a list"
  | endInObject => "EOF while parsing an object"
  | endInString => "EOF while parsing a string"
  | endInValue => "EOF while parsing a value"
  | expectedColon => "expected `:`"
  | expectedListEnd => "expected `,` or `]`"
  | expectedObjectEnd => "expected `,` or `\x7d`"
  | expectedIdent => "expected ident"
  | expectedValue => "expected value"
  | invalidEscape => "invalid escape"
  | invalidNumber => "invalid number"
  | numberOutOfRange => "number out of range"
  | controlCharacter =>
    "control character (\\u0000-\\u001F) found while parsing a string"
  | keyNotString => "key must be a string"
  | loneSurrogate => "lone leading surrogate in hex escape"
  | trailingComma => "trailing comma"
  | trailingCharacters => "trailing characters"
  | unfinishedHexEscape => "unexpected end of hex escape"
  | tooDeep => "recursion limit exceeded"

structure Position where
  line : Nat
  column : Nat
  deriving DecidableEq, Repr

def Position.text (p : Position) : String :=
  s!"line {p.line} column {p.column}"

structure ReadError where
  fault : Fault
  position : Position
  deriving DecidableEq, Repr

def ReadError.message (e : ReadError) : String :=
  e.fault.message ++ " at " ++ e.position.text

/-- What is left to read, and where it starts. -/
structure Input where
  rest : List Char
  position : Position
  deriving Repr

namespace Input

def ofText (s : String) : Input := ⟨s.toList, ⟨1, 0⟩⟩

/-- The input after its first character. -/
def next (i : Input) : Input :=
  match i.rest with
  | [] => i
  | '\n' :: cs => ⟨cs, ⟨i.position.line + 1, 0⟩⟩
  | c :: cs => ⟨cs, ⟨i.position.line, i.position.column + c.utf8Size⟩⟩

/-- The position of a fault in the next character. -/
def ahead (i : Input) : Position :=
  match i.rest with
  | [] => i.position
  | '\n' :: _ => ⟨i.position.line + 1, 0⟩
  | _ :: _ => ⟨i.position.line, i.position.column + 1⟩

def fail {α : Type} (i : Input) (f : Fault) : Except ReadError α := .error ⟨f, i.position⟩

def failAhead {α : Type} (i : Input) (f : Fault) : Except ReadError α := .error ⟨f, i.ahead⟩

end Input

def isJsonBlank (c : Char) : Bool := c = ' ' || c = '\n' || c = '\t' || c = '\r'

def skipBlanksFrom : List Char → Input → Input
  | [], i => i
  | c :: cs, i => if isJsonBlank c then skipBlanksFrom cs i.next else i

def Input.skipBlanks (i : Input) : Input := skipBlanksFrom i.rest i

/-- Reads the rest of a word. -/
def readWord : List Char → Input → Except ReadError Input
  | [], i => .ok i
  | w :: ws, i =>
    match i.rest with
    | [] => i.fail .endInValue
    | c :: _ => if c = w then readWord ws i.next else i.next.fail .expectedIdent

/-! ## Numbers

A number is read as an integer as long as its digits fit 64 bits. Otherwise it is a floating point
number, computed from the digits that fit and a power of ten.
-/

def limit64 : Nat := 0x10000000000000000

def digitValue (c : Char) : Nat := c.toNat - '0'.toNat

/-- Reads digits into a value for as long as it fits, and counts them. -/
def readDigits : List Char → Input → Nat → Nat → Input × Nat × Nat
  | [], i, v, n => (i, v, n)
  | c :: cs, i, v, n =>
    if c.isDigit && v * 10 + digitValue c < limit64 then
      readDigits cs i.next (v * 10 + digitValue c) (n + 1)
    else (i, v, n)

/-- Passes over digits and counts them. -/
def passDigits : List Char → Input → Nat → Input × Nat
  | [], i, n => (i, n)
  | c :: cs, i, n => if c.isDigit then passDigits cs i.next (n + 1) else (i, n)

def powerOfTen (n : Nat) : Float := Float.ofScientific 1 false n

/-- The value `significand * 10 ^ exponent`, or none if it is too large. -/
def scaleFloat : Nat → Float → Int → Option Float
  | 0, f, _ => some f
  | n + 1, f, e =>
    if e.natAbs ≤ 308 then
      if e ≥ 0 then
        let g := f * powerOfTen e.natAbs
        if g.isInf then none else some g
      else some (f / powerOfTen e.natAbs)
    else if f == 0.0 then some f
    else if e ≥ 0 then none
    else scaleFloat n (f / powerOfTen 308) (e + 308)

def floatNumber (i : Input) (positive : Bool) (significand : Nat) (exponent : Int) :
    Except ReadError (Number × Input) :=
  match scaleFloat (exponent.natAbs / 308 + 2) (UInt64.ofNat significand).toFloat exponent with
  | none => i.fail .numberOutOfRange
  | some f => .ok (.float (if positive then f else -f).toBits, i)

/-- What can come after the digits of a number. -/
inductive NumberPart where
  | fraction
  | exponent
  | ended
  deriving DecidableEq, Repr

def numberPart : List Char → NumberPart
  | '.' :: _ => .fraction
  | 'e' :: _ | 'E' :: _ => .exponent
  | _ => .ended

def exponentLimit : Nat := 0x80000000

/-- Reads the digits of an exponent; none if they exceed the limit. -/
def readExponentDigits : List Char → Input → Nat → Option Nat × Input
  | [], i, v => (some v, i)
  | c :: cs, i, v =>
    if c.isDigit then
      if v * 10 + digitValue c < exponentLimit then
        readExponentDigits cs i.next (v * 10 + digitValue c)
      else (none, i.next)
    else (some v, i)

/-- Whether an exponent goes up, and where its digits start. -/
def exponentSign (i : Input) : Bool × Input :=
  match i.rest with
  | '+' :: _ => (true, i.next)
  | '-' :: _ => (false, i.next)
  | _ => (true, i)

def readExponent (i : Input) (positive : Bool) (significand : Nat) (start : Int) :
    Except ReadError (Number × Input) :=
  let (up, i) := exponentSign i.next
  match i.rest with
  | [] => i.fail .endInValue
  | c :: _ =>
    if !c.isDigit then i.next.fail .invalidNumber
    else
      match readExponentDigits i.next.rest i.next (digitValue c) with
      | (some e, i) =>
        floatNumber i positive significand (if up then start + e else start - e)
      | (none, i) =>
        if significand ≠ 0 && up then i.fail .numberOutOfRange
        else
          let (i, _) := passDigits i.rest i 0
          .ok (.float (if positive then (0.0 : Float) else -0.0).toBits, i)

def readFraction (i : Input) (positive : Bool) (significand : Nat) (start : Int) :
    Except ReadError (Number × Input) :=
  let i := i.next
  let (i, significand, count) := readDigits i.rest i significand 0
  let (i, passed) := passDigits i.rest i 0
  if count + passed = 0 then
    match i.rest with
    | [] => i.failAhead .endInValue
    | _ :: _ => i.failAhead .invalidNumber
  else
    let e := start - count
    match numberPart i.rest with
    | .exponent => readExponent i positive significand e
    | .fraction | .ended => floatNumber i positive significand e

def startsWithDigit : List Char → Bool
  | [] => false
  | c :: _ => c.isDigit

def readNumber (i : Input) (positive : Bool) : Except ReadError (Number × Input) :=
  match i.rest with
  | [] => i.fail .endInValue
  | c :: cs =>
    if !c.isDigit then i.next.fail .invalidNumber
    else if c = '0' && startsWithDigit cs then
      i.next.failAhead .invalidNumber
    else
      let (i, v, _) := readDigits i.rest i 0 0
      let (i, passed) := passDigits i.rest i 0
      match numberPart i.rest with
      | .fraction => readFraction i positive v passed
      | .exponent => readExponent i positive v passed
      | .ended =>
        if passed > 0 then floatNumber i positive v passed
        else if positive then .ok (.int v, i)
        else if v = 0 || v > 0x8000000000000000 then .ok (.float (-(UInt64.ofNat v).toFloat).toBits, i)
        else .ok (.int (-(v : Int)), i)

/-! ## Texts -/

def hexValue? (c : Char) : Option Nat :=
  if c.isDigit then some (c.toNat - '0'.toNat)
  else if 'a' ≤ c && c ≤ 'f' then some (c.toNat - 'a'.toNat + 10)
  else if 'A' ≤ c && c ≤ 'F' then some (c.toNat - 'A'.toNat + 10)
  else none

def toEnd : List Char → Input → Input
  | [], i => i
  | _ :: cs, i => toEnd cs i.next

/-- Reads four hexadecimal digits. -/
def readHex (i : Input) : Except ReadError (Nat × Input) :=
  match i.rest with
  | a :: b :: c :: d :: _ =>
    let j := i.next.next.next.next
    match hexValue? a, hexValue? b, hexValue? c, hexValue? d with
    | some a, some b, some c, some d => .ok (((a * 16 + b) * 16 + c) * 16 + d, j)
    | _, _, _, _ => j.fail .invalidEscape
  | _ => (toEnd i.rest i).fail .endInString

/-- Reads the code of a `\u` escape, of two of them where the first is half of a pair. -/
def readUnicode (i : Input) : Except ReadError (Char × Input) := do
  let (n, i) ← readHex i
  if 0xDC00 ≤ n && n ≤ 0xDFFF then i.fail .loneSurrogate
  else if n < 0xD800 || n > 0xDBFF then .ok (Char.ofNat n, i)
  else
    match i.rest with
    | [] => i.fail .endInString
    | '\\' :: _ =>
      let i := i.next
      match i.rest with
      | [] => i.fail .endInString
      | 'u' :: _ =>
        let (m, i) ← readHex i.next
        if 0xDC00 ≤ m && m ≤ 0xDFFF then
          .ok (Char.ofNat (0x10000 + (n - 0xD800) * 0x400 + (m - 0xDC00)), i)
        else i.fail .loneSurrogate
      | _ :: _ => i.next.fail .unfinishedHexEscape
    | _ :: _ => i.next.fail .unfinishedHexEscape

/-- Reads the rest of a text up to its closing quote; `acc` holds what was read, last first. -/
def readText : Nat → Input → List Char → Except ReadError (String × Input)
  | 0, i, _ => i.fail .endInString
  | n + 1, i, acc =>
    match i.rest with
    | [] => i.fail .endInString
    | '\x22' :: _ => .ok (String.ofList acc.reverse, i.next)
    | '\\' :: _ =>
      let i := i.next
      match i.rest with
      | [] => i.fail .endInString
      | c :: _ =>
        let j := i.next
        match c with
        | '\x22' => readText n j ('\x22' :: acc)
        | '\\' => readText n j ('\\' :: acc)
        | '/' => readText n j ('/' :: acc)
        | 'b' => readText n j ('\x08' :: acc)
        | 'f' => readText n j ('\x0c' :: acc)
        | 'n' => readText n j ('\n' :: acc)
        | 'r' => readText n j ('\r' :: acc)
        | 't' => readText n j ('\t' :: acc)
        | 'u' =>
          match readUnicode j with
          | .ok (c, j) => readText n j (c :: acc)
          | .error e => .error e
        | _ => j.fail .invalidEscape
    | c :: _ =>
      if c.toNat < 0x20 then i.next.fail .controlCharacter else readText n i.next (c :: acc)

def readString (i : Input) : Except ReadError (String × Input) :=
  readText (i.rest.length + 1) i []

/-! ## Values -/

/-- The deepest nesting that is read. -/
def maxDepth : Nat := 127

mutual

/-- Reads a value. The first number bounds the reads, the second one the nesting still allowed. -/
def readValue : Nat → Nat → Input → Except ReadError (Json × Input)
  | 0, _, i => i.fail .endInValue
  | n + 1, depth, i =>
    let i := i.skipBlanks
    match i.rest with
    | [] => i.failAhead .endInValue
    | c :: _ =>
      if c = 'n' then (readWord "ull".toList i.next).map fun i => (null, i)
      else if c = 't' then (readWord "rue".toList i.next).map fun i => (bool true, i)
      else if c = 'f' then (readWord "alse".toList i.next).map fun i => (bool false, i)
      else if c = '-' then (readNumber i.next false).map fun (v, i) => (num v, i)
      else if c.isDigit then (readNumber i true).map fun (v, i) => (num v, i)
      else if c = '\x22' then (readString i.next).map fun (s, i) => (str s, i)
      else if c = '[' then
        match depth with
        | 0 => i.failAhead .tooDeep
        | depth + 1 => (readItems n depth true i.next []).map fun (xs, i) => (arr xs, i)
      else if c = '\x7b' then
        match depth with
        | 0 => i.failAhead .tooDeep
        | depth + 1 => (readFields n depth true i.next []).map fun (fs, i) => (obj fs, i)
      else i.failAhead .expectedValue

/-- Reads items up to the end of a list; `acc` holds those read, last first. -/
def readItems : Nat → Nat → Bool → Input → List Json → Except ReadError (List Json × Input)
  | 0, _, _, i, _ => i.fail .endInList
  | n + 1, depth, first, i, acc =>
    let i := i.skipBlanks
    let more (i : Input) :=
      match readValue n depth i with
      | .error e => .error e
      | .ok (v, i) => readItems n depth false i (v :: acc)
    match i.rest with
    | [] => i.failAhead .endInList
    | ']' :: _ => .ok (acc.reverse, i.next)
    | c :: _ =>
      if first then more i
      else if c = ',' then
        let i := i.next.skipBlanks
        match i.rest with
        | [] => i.failAhead .endInValue
        | ']' :: _ => i.failAhead .trailingComma
        | _ :: _ => more i
      else i.failAhead .expectedListEnd

/-- Reads fields up to the end of an object; `acc` holds those read, last first. -/
def readFields : Nat → Nat → Bool → Input → List (String × Json) →
    Except ReadError (List (String × Json) × Input)
  | 0, _, _, i, _ => i.fail .endInObject
  | n + 1, depth, first, i, acc =>
    let i := i.skipBlanks
    let more (i : Input) :=
      match readString i.next with
      | .error e => .error e
      | .ok (k, i) =>
        let i := i.skipBlanks
        match i.rest with
        | [] => i.failAhead .endInObject
        | ':' :: _ =>
          match readValue n depth i.next with
          | .error e => .error e
          | .ok (v, i) => readFields n depth false i ((k, v) :: acc)
        | _ :: _ => i.failAhead .expectedColon
    match i.rest with
    | [] => i.failAhead .endInObject
    | '\x7d' :: _ => .ok (acc.reverse, i.next)
    | c :: _ =>
      if first then
        if c = '\x22' then more i else i.failAhead .keyNotString
      else if c = ',' then
        let i := i.next.skipBlanks
        match i.rest with
        | [] => i.failAhead .endInValue
        | '\x22' :: _ => more i
        | '\x7d' :: _ => i.failAhead .trailingComma
        | _ :: _ => i.failAhead .keyNotString
      else i.failAhead .expectedObjectEnd

end

/-- Reads a text that holds one value and nothing else. Objects keep their fields as they are
written, repeated ones too. -/
def readWritten (s : String) : Except ReadError Json := do
  let i := Input.ofText s
  let (v, i) ← readValue (2 * i.rest.length + 2) maxDepth i
  let i := i.skipBlanks
  match i.rest with
  | [] => .ok v
  | _ :: _ => i.failAhead .trailingCharacters

/-- Reads a text that holds one value and nothing else. A repeated key keeps its last value. -/
def read (s : String) : Except ReadError Json := (readWritten s).map normal

end DepAtlas.Json
