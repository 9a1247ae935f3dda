import DepAtlas.Json.Decode
import DepAtlas.Json.Reader

/-! # Records in text

A record can be read straight from text. Its fields are checked as they come, so a field that does not
fit is told even if the text after it is no JSON, and the position in the text is told with it.
-/

namespace DepAtlas.Json

/-- Why a text does not hold a value of a given shape. -/
inductive TextError where
  | unreadable (e : ReadError)
  | misfit (e : DecodeError) (position : Option Position)
  deriving DecidableEq, Repr

namespace TextError

def message : TextError → String
  | unreadable e => e.message
  | misfit e none => e.message
  | misfit e (some p) => e.message ++ " at " ++ p.text

end TextError

namespace Input

/-- A read that can fail, among reads that can find misfits. -/
def lift {α : Type} (r : Except ReadError α) : Except TextError α := r.mapError .unreadable

/-- The position after an object has been closed here, if it can be closed. -/
def afterObject (i : Input) : Position :=
  let i := i.skipBlanks
  match i.rest with
  | '\x7d' :: _ => i.next.position
  | _ => i.position

/-- The position after a list has been closed here, if it can be closed. -/
def afterList (i : Input) : Position :=
  let i := i.skipBlanks
  match i.rest with
  | ']' :: _ => i.next.position
  | ',' :: _ => i.next.skipBlanks.position
  | _ => i.position

/-- Closes a list. -/
def closeList (i : Input) : Except ReadError Input :=
  let i := i.skipBlanks
  match i.rest with
  | [] => i.failAhead .endInList
  | ']' :: _ => .ok i.next
  | ',' :: _ =>
    let i := i.next.skipBlanks
    match i.rest with
    | ']' :: _ => i.failAhead .trailingComma
    | _ => i.failAhead .trailingCharacters
  | _ :: _ => i.failAhead .trailingCharacters

/-- Passes over the colon after a key. -/
def colon (i : Input) : Except ReadError Input :=
  let i := i.skipBlanks
  match i.rest with
  | [] => i.failAhead .endInObject
  | ':' :: _ => .ok i.next
  | _ :: _ => i.failAhead .expectedColon

/-- Whether there is nothing more but blanks. -/
def finish (i : Input) : Except ReadError Unit :=
  let i := i.skipBlanks
  match i.rest with
  | [] => .ok ()
  | _ :: _ => i.failAhead .trailingCharacters

/-- Why the next value does not fit. Lists and objects are told at their first character. -/
def misfit (i : Input) (expected : String) : TextError :=
  let i := i.skipBlanks
  match i.rest with
  | '[' :: _ => .misfit (.wrongType "sequence" expected) (some i.position)
  | '\x7b' :: _ => .misfit (.wrongType "map" expected) (some i.position)
  | _ =>
    match readValue 1 0 i with
    | .error e => .unreadable e
    | .ok (j, i) => .misfit (.wrongType j.described expected) (some i.position)

/-- Reads a text. -/
def text (i : Input) (expected : String) : Except TextError (String × Input) :=
  let i := i.skipBlanks
  match i.rest with
  | '\x22' :: _ => lift (readString i.next)
  | _ => .error (i.misfit expected)

/-- Reads one of several names. -/
def name (i : Input) (known : List String) (expected : String) :
    Except TextError (String × Input) := do
  let (s, i) ← i.text expected
  if known.contains s then return (s, i)
  else throw (.misfit (.unknownVariant s known) (some i.position))

/-- Reads any value inside of a record. -/
def value (i : Input) : Except TextError (Json × Input) :=
  lift (readValue (2 * i.rest.length + 2) (maxDepth - 1) i)

/-- Reads the fields of an object up to its end, which is left to read. What is done with a field is
said by `field`, from where the key ends. The number bounds the fields. -/
def fields {σ : Type} (field : σ → String → Input → Except TextError (σ × Input)) :
    Nat → Bool → σ → Input → Except TextError (σ × Input)
  | 0, _, _, i => lift (i.fail .endInObject)
  | n + 1, first, s, i =>
    let i := i.skipBlanks
    let more (i : Input) : Except TextError (σ × Input) :=
      match readString i.next with
      | .error e => .error (.unreadable e)
      | .ok (key, i) =>
        match field s key i with
        | .error e => .error e
        | .ok (s, i) => fields field n false s i
    match i.rest with
    | [] => lift (i.failAhead .endInObject)
    | '\x7d' :: _ => .ok (s, i)
    | c :: _ =>
      if first then
        if c = '\x22' then more i else lift (i.failAhead .keyNotString)
      else if c = ',' then
        let i := i.next.skipBlanks
        match i.rest with
        | [] => lift (i.failAhead .endInValue)
        | '\x22' :: _ => more i
        | '\x7d' :: _ => lift (i.failAhead .trailingComma)
        | _ :: _ => lift (i.failAhead .keyNotString)
      else lift (i.failAhead .expectedObjectEnd)

/-- Whether a list has one more element, and where it starts. -/
def nextElement (i : Input) (first : Bool) : Except ReadError (Bool × Input) :=
  let i := i.skipBlanks
  match i.rest with
  | [] => i.failAhead .endInList
  | ']' :: _ => .ok (false, i)
  | c :: _ =>
    if first then .ok (true, i)
    else if c = ',' then
      let i := i.next.skipBlanks
      match i.rest with
      | [] => i.failAhead .endInValue
      | ']' :: _ => i.failAhead .trailingComma
      | _ :: _ => .ok (true, i)
    else i.failAhead .expectedListEnd

end Input

/-- What is asked for where a tag is to be named. -/
def tagExpected : String := "variant identifier"

/-- Reads the value of a field, from where its key ends. The tag is kept apart from the fields before
it. -/
def taggedField (known : List String) (s : Option String × List (String × Json)) (key : String)
    (i : Input) : Except TextError ((Option String × List (String × Json)) × Input) :=
  if key = "type" then
    if s.1.isSome then .error (.misfit (.repeatedField key) (some i.afterObject))
    else do
      let (tag, i) ← (← Input.lift i.colon).name known tagExpected
      return ((some tag, s.2), i)
  else do
    let (v, i) ← (← Input.lift i.colon).value
    return ((s.1, s.2 ++ [(key, v)]), i)

/-- Reads a value with a tag among its fields, or as its first element, into the tag and the rest;
what comes after the value is left to read. -/
def readTagged (title : String) (known : List String) (i : Input) :
    Except TextError (String × Json × Input) :=
  let i := i.skipBlanks
  match i.rest with
  | '\x7b' :: _ => do
    let ((tag, rest), i) ← i.next.fields (taggedField known) (i.rest.length + 1) true (none, [])
    match tag with
    | none => throw (.misfit (.missingField "type") (some i.next.position))
    | some tag => return (tag, .obj rest, i.next)
  | '[' :: _ => do
    let (more, i) ← Input.lift (i.next.nextElement true)
    if !more then throw (.misfit (.missingField "type") (some i.next.position))
    let (tag, i) ← i.name known tagExpected
    let (rest, i) ← Input.lift
      (readItems (2 * i.rest.length + 2) (maxDepth - 1) false i [])
    return (tag, .arr rest, i)
  | _ => .error (i.misfit ("internally tagged enum " ++ title))

/-- Reads a text that holds one value with a tag and nothing else. What the tag and the rest stand for
is said by `d`. -/
def readTaggedText {α : Type} (title : String) (known : List String)
    (d : String → Decode α) (s : String) : Except TextError α := do
  let (tag, content, i) ← readTagged title known (.ofText s)
  let a ← (d tag content).mapError (.misfit · none)
  Input.lift i.finish
  return a

end DepAtlas.Json
