import DepAtlas.Json.Printer
import DepAtlas.Text.Shown

/-! # Values of a given shape

A value of a known type is read off a JSON value. A record is an object with its fields by name, or
an array with its fields in order. The fields of an object are looked at one after the other, and the
first fault found is the one told; fields that are missing are told last, in the order in which the
record lists them.
-/

namespace DepAtlas.Json

/-- How a value is named when it does not fit. -/
def described : Json → String
  | null => "null"
  | bool b => "boolean `" ++ (if b then "true" else "false") ++ "`"
  | num n =>
    match n with
    | .int _ => "integer `" ++ n.text ++ "`"
    | .float _ => "floating point `" ++ n.text ++ "`"
  | str s => "string " ++ Text.shown s
  | arr _ => "sequence"
  | obj _ => "map"

/-- Names to choose from. -/
def choices (none : String) : List String → String
  | [] => none
  | [a] => "expected `" ++ a ++ "`"
  | [a, b] => "expected `" ++ a ++ "` or `" ++ b ++ "`"
  | names => "expected one of " ++ ", ".intercalate (names.map fun n => "`" ++ n ++ "`")

/-- Why a JSON value does not have the expected shape. -/
inductive DecodeError where
  | wrongType (found expected : String)
  | wrongValue (found expected : String)
  | wrongLength (length : Nat) (expected : String)
  | missingField (name : String)
  | repeatedField (name : String)
  | unknownField (name : String) (known : List String)
  | unknownVariant (name : String) (known : List String)
  deriving DecidableEq, Repr

def DecodeError.message : DecodeError → String
  | wrongType found expected => "invalid type: " ++ found ++ ", expected " ++ expected
  | wrongValue found expected => "invalid value: " ++ found ++ ", expected " ++ expected
  | wrongLength length expected =>
    "invalid length " ++ toString length ++ ", expected " ++ expected
  | missingField name => "missing field `" ++ name ++ "`"
  | repeatedField name => "duplicate field `" ++ name ++ "`"
  | unknownField name known =>
    "unknown field `" ++ name ++ "`, " ++ choices "there are no fields" known
  | unknownVariant name known =>
    "unknown variant `" ++ name ++ "`, " ++ choices "there are no variants" known

abbrev Decode (α : Type) := Json → Except DecodeError α

namespace Decode

variable {α β : Type}

def wrongType (j : Json) (expected : String) : Except DecodeError α :=
  .error (.wrongType j.described expected)

/-- A text; `expected` says what it is for. -/
def textAs (expected : String) : Decode String
  | .str s => .ok s
  | j => wrongType j expected

def text : Decode String := textAs "a string"

def flag : Decode Bool
  | .bool b => .ok b
  | j => wrongType j "a boolean"

/-- A number without sign, of the type named in complaints. -/
def natural (type : String) : Decode Nat
  | .num (.int i) =>
    match i with
    | .ofNat n => .ok n
    | .negSucc _ => .error (.wrongValue (described (.num (.int i))) type)
  | j => wrongType j type

def any : Decode Json := .ok

def option (d : Decode α) : Decode (Option α)
  | .null => .ok none
  | j => (d j).map some

def list (d : Decode α) : Decode (List α)
  | .arr items => items.mapM d
  | j => wrongType j "a sequence"

/-- Two values in an array. -/
def pair (d : Decode α) (e : Decode β) : Decode (α × β)
  | .arr [] => .error (.wrongLength 0 "a tuple of size 2")
  | .arr [j] => do
    let _ ← d j
    .error (.wrongLength 1 "a tuple of size 2")
  | .arr (j :: k :: rest) => do
    let a ← d j
    let b ← e k
    if rest.isEmpty then return (a, b)
    else .error (.wrongLength (rest.length + 2) "fewer elements in array")
  | j => wrongType j "a tuple of size 2"

/-- A table from names to values, in the order of the names. -/
def table (d : Decode α) : Decode (List (String × α))
  | .obj fields => do
    let entries ← fields.mapM fun (key, j) => (d j).map (key, ·)
    return sortFields entries
  | j => wrongType j "a map"

/-- Whether a value was put aside with its siblings before it was decoded, while they were searched
for a tag. -/
inductive Origin where
  | direct
  | gathered
  deriving DecidableEq, Repr

/-- One of several names, given as a text, or as an object with the name as its only field and
nothing in it. -/
def name (origin : Origin) (known : List String) : Decode String := fun j =>
  let check (s : String) : Except DecodeError String :=
    if known.contains s then .ok s else .error (.unknownVariant s known)
  match j with
  | .str s => check s
  | .obj [(s, content)] => do
    let s ← check s
    match content, origin with
    | .null, _ | .obj [], .gathered => pure s
    | other, _ => wrongType other "unit"
  | .obj _ => .error (.wrongValue "map" "map with a single key")
  | j => wrongType j "string or map"

/-- One of several values, by its name. -/
def oneOf (origin : Origin) (all : List α) (nameOf : α → String) : Decode α := fun j => do
  let s ← name origin (all.map nameOf) j
  match all.find? (nameOf · = s) with
  | some a => pure a
  | none => .error (.unknownVariant s (all.map nameOf))

/-- The fields of a record by their names. -/
abbrev Fields := List (String × Json)

namespace Fields

def get? (fields : Fields) (key : String) : Option Json :=
  (fields.find? (·.1 = key)).map (·.2)

def required (fields : Fields) (key : String) (d : Decode α) : Except DecodeError α :=
  match fields.get? key with
  | some j => d j
  | none => .error (.missingField key)

/-- A field that may be missing or null. -/
def optional (fields : Fields) (key : String) (d : Decode α) : Except DecodeError (Option α) :=
  match fields.get? key with
  | some j => option d j
  | none => .ok none

def orElse (fields : Fields) (key : String) (default : α) (d : Decode α) : Except DecodeError α :=
  match fields.get? key with
  | some j => d j
  | none => .ok default

end Fields

/-- What is known of a field before its record is read. -/
structure Field where
  key : String
  check : Json → Except DecodeError Unit
  /-- Whether an array may end before this field. -/
  omittable : Bool := false

def Field.of (key : String) (d : Decode α) (omittable : Bool := false) : Field :=
  ⟨key, fun j => (d j).map fun _ => (), omittable⟩

structure Shape where
  /-- What the record is called in complaints. -/
  title : String
  fields : List Field
  /-- Whether fields that are not listed are refused. -/
  closed : Bool := false

namespace Shape

def keys (s : Shape) : List String := s.fields.map (·.key)

def counted (n : Nat) (noun : String) : String :=
  toString n ++ " " ++ noun ++ (if n = 1 then "" else "s")

/-- Looks at the fields of an object one after the other; `seen` are the known ones before. -/
def checkFields (s : Shape) (seen : List String) : Fields → Except DecodeError Unit
  | [] => .ok ()
  | (key, j) :: rest =>
    match s.fields.find? (·.key = key) with
    | some f =>
      if seen.contains key then .error (.repeatedField key)
      else do
        f.check j
        s.checkFields (key :: seen) rest
    | none =>
      if s.closed then .error (.unknownField key s.keys) else s.checkFields seen rest

/-- Pairs the elements of an array with the fields of a record. -/
def pair (s : Shape) : Nat → List Field → List Json → Except DecodeError Fields
  | _, [], _ => .ok []
  | n, f :: fs, [] =>
    if f.omittable then s.pair n fs []
    else .error (.wrongLength n (s.title ++ " with " ++ counted s.fields.length "element"))
  | n, f :: fs, j :: js => do
    f.check j
    return (f.key, j) :: (← s.pair (n + 1) fs js)

/-- The fields of a record whose values fit. -/
def read (s : Shape) (origin : Origin) : Decode Fields
  | .obj fields => do
    s.checkFields [] fields
    return fields
  | .arr items => do
    let fields ← s.pair 0 s.fields items
    if s.fields.length < items.length then
      throw (.wrongLength items.length (match origin with
        | .direct => "fewer elements in array"
        | .gathered => counted s.fields.length "element" ++ " in sequence"))
    return fields
  | j => wrongType j s.title

end Shape

/-- Splits a value with a tag among its fields, or as its first element, into the tag and the
rest. -/
def tagged (title : String) (known : List String) : Decode (String × Json) := fun j =>
  let tag (t : Json) : Except DecodeError String :=
    match t with
    | .str s => if known.contains s then .ok s else .error (.unknownVariant s known)
    | t => wrongType t "variant identifier"
  match j with
  | .obj fields =>
    match Fields.get? fields "type" with
    | none => .error (.missingField "type")
    | some t => do return (← tag t, .obj (fields.filter (·.1 ≠ "type")))
  | .arr [] => .error (.missingField "type")
  | .arr (t :: rest) => do return (← tag t, .arr rest)
  | j => wrongType j ("internally tagged enum " ++ title)

end Decode

end DepAtlas.Json
