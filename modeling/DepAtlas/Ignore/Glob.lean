import DepAtlas.Text.Utf8

/-! # Glob patterns

A glob is a text with wild cards that is held against the path of a file, byte by byte. A star and a
question mark do not pass a slash; two stars that stand alone between slashes pass any number of
directories. `Glob.parse` reads a pattern and `Glob.accepts` holds it against a path.
-/

namespace DepAtlas.Ignore

/-- One piece of a pattern. -/
inductive Piece where
  | literal (c : Char)
  /-- Any one byte but a slash. -/
  | one
  /-- Any bytes without a slash. -/
  | star
  /-- Two stars at the start: nothing, or directories and the slash after them. -/
  | deepStart
  /-- Two stars at the end: a slash and anything after it. -/
  | deepEnd
  /-- Two stars between slashes: a slash, or two with anything between them. -/
  | deepMiddle
  | charIn (negated : Bool) (ranges : List (Char × Char))
  | oneOf (branches : List (List Piece))
  deriving Repr

/-- A pattern is a sequence of pieces. -/
abbrev Glob := List Piece

/-- Why a text is no pattern. -/
inductive GlobFault where
  | unclosedClass
  | badRange (lo hi : Char)
  | unclosedGroup
  | unopenedGroup
  | danglingEscape
  deriving DecidableEq, Repr

def GlobFault.message : GlobFault → String
  | unclosedClass => "unclosed character class; missing ']'"
  | badRange lo hi => "invalid range; '" ++ lo.toString ++ "' > '" ++ hi.toString ++ "'"
  | unclosedGroup =>
    "unclosed alternate group; missing '\x7d' (maybe escape '\x7b' with '[\x7b]'?)"
  | unopenedGroup =>
    "unopened alternate group; missing '\x7b' (maybe escape '\x7d' with '[\x7d]'?)"
  | danglingEscape => "dangling '\\'"

namespace Glob

/-- Adds the end of a range to the last range of a character class, given in reverse. -/
def closeRange (c : Char) : List (Char × Char) → Except GlobFault (List (Char × Char))
  | [] => .ok [(c, c)]
  | (lo, _) :: rest => if c < lo then .error (.badRange lo c) else .ok ((lo, c) :: rest)

/-- The ranges of a character class, in reverse, up to its closing bracket, and what follows it. A
bracket or a dash that comes first is a character of the class, and so is a dash that comes last.
There is no result if the class is never closed. -/
def classRanges (ranges : List (Char × Char)) (first inRange : Bool) :
    List Char → Except GlobFault (Option (List (Char × Char) × List Char))
  | [] => .ok none
  | ']' :: rest =>
    if first then classRanges ((']', ']') :: ranges) false inRange rest
    else .ok (some (if inRange then ('-', '-') :: ranges else ranges, rest))
  | '-' :: rest =>
    if first then classRanges (('-', '-') :: ranges) false inRange rest
    else if inRange then do classRanges (← closeRange '-' ranges) false false rest
    else classRanges ranges false true rest
  | c :: rest =>
    if inRange then do classRanges (← closeRange c ranges) false false rest
    else classRanges ((c, c) :: ranges) false false rest

/-- A character class after its opening bracket, and what follows it. -/
def readClass (cs : List Char) : Except GlobFault (Option (Piece × List Char)) := do
  let (negated, body) := match cs with
    | '!' :: rest | '^' :: rest => (true, rest)
    | _ => (false, cs)
  match ← classRanges [] true false body with
  | none => pure none
  | some (ranges, rest) => pure (some (.charIn negated ranges.reverse, rest))

/-- A pattern that is being read. -/
structure Draft where
  /-- The pieces of the branch in hand, in reverse. -/
  pieces : List Piece
  /-- For each open group, the innermost first, its finished branches and the pieces before the
  group, in reverse. -/
  groups : List (List (List Piece) × List Piece)
  /-- The last character that was read. -/
  last : Option Char
  /-- Whether an opening bracket stands for itself from now on. -/
  plainBrackets : Bool

namespace Draft

def push (d : Draft) (p : Piece) (last : Char) : Draft :=
  { d with pieces := p :: d.pieces, last := some last }

/-- Two stars that pass no slash. -/
def pushStars (d : Draft) : Draft := (d.push .star '*').push .star '*'

/-- Puts a deep piece in place of the slash before it. Beside another deep piece it adds nothing. -/
def pushDeep (d : Draft) (p : Piece) (last : Char) : Draft :=
  match d.pieces with
  | .deepStart :: _ | .deepEnd :: _ => { d with last := some last }
  | _ :: rest => { d with pieces := p :: rest, last := some last }
  | [] => d.push p last

def openGroup (d : Draft) : Draft :=
  { d with pieces := [], groups := ([], d.pieces) :: d.groups, last := some '\x7b' }

def nextBranch (d : Draft) : Draft :=
  match d.groups with
  | [] => d.push (.literal ',') ','
  | (done, before) :: outer =>
    { d with pieces := [], groups := (d.pieces.reverse :: done, before) :: outer, last := some ',' }

def closeGroup (d : Draft) : Except GlobFault Draft :=
  match d.groups with
  | [] => .error .unopenedGroup
  | (done, before) :: outer =>
    .ok { d with
      pieces := .oneOf (d.pieces.reverse :: done).reverse :: before
      groups := outer
      last := some '\x7d' }

/-- A star and what it means among its neighbours, with what is left to read. -/
def star (d : Draft) : List Char → Draft × List Char
  | '*' :: rest =>
    if d.pieces.isEmpty then
      match rest with
      | [] => (d.push .deepStart '*', [])
      | '/' :: rest => (d.push .deepStart '/', rest)
      | _ => (d.pushStars, rest)
    else if d.last ≠ some '/' &&
        (d.groups.isEmpty || (d.last ≠ some ',' && d.last ≠ some '\x7b')) then
      (d.pushStars, rest)
    else
      match rest with
      | [] => (d.pushDeep .deepEnd '*', [])
      | '/' :: rest => (d.pushDeep .deepMiddle '/', rest)
      | c :: _ =>
        if !d.groups.isEmpty && (c = ',' || c = '\x7d') then (d.pushDeep .deepEnd '*', rest)
        else (d.pushStars, rest)
  | rest => (d.push .star '*', rest)

end Draft

/-- Reads the rest of a pattern. With `lenient`, an opening bracket that is never closed stands for
itself. -/
def readFrom (lenient : Bool) : Nat → Draft → List Char → Except GlobFault Draft
  | 0, d, _ => .ok d
  | _ + 1, d, [] => .ok d
  | fuel + 1, d, c :: rest =>
    match c with
    | '?' => readFrom lenient fuel (d.push .one '?') rest
    | '*' =>
      let (d, rest) := d.star rest
      readFrom lenient fuel d rest
    | '[' =>
      if d.plainBrackets then readFrom lenient fuel (d.push (.literal '[') '[') rest
      else do
        match ← readClass rest with
        | some (piece, rest) => readFrom lenient fuel (d.push piece ']') rest
        | none =>
          if lenient then
            readFrom lenient fuel ({ d with plainBrackets := true }.push (.literal '[') '[') rest
          else throw .unclosedClass
    | '\x7b' => readFrom lenient fuel d.openGroup rest
    | '\x7d' => do readFrom lenient fuel (← d.closeGroup) rest
    | ',' => readFrom lenient fuel d.nextBranch rest
    | '\\' =>
      match rest with
      | [] => .error .danglingEscape
      | e :: rest => readFrom lenient fuel (d.push (.literal e) e) rest
    | c => readFrom lenient fuel (d.push (.literal c) c) rest

def parse (lenient : Bool) (s : String) : Except GlobFault Glob := do
  let d ← readFrom lenient (s.length + 1) ⟨[], [], none, false⟩ s.toList
  if d.groups.isEmpty then pure d.pieces.reverse else throw .unclosedGroup

end Glob

/-- A slash. -/
def slash : UInt8 := '/'.toNat.toUInt8

/-- What is left after `text` at the start. -/
def afterBytes? : List UInt8 → List UInt8 → Option (List UInt8)
  | [], bs => some bs
  | _ :: _, [] => none
  | t :: ts, b :: bs => if t = b then afterBytes? ts bs else none

/-- All that can be left when any bytes are passed. -/
def tails : List UInt8 → List (List UInt8)
  | [] => [[]]
  | b :: bs => (b :: bs) :: tails bs

/-- All that can be left when bytes that satisfy `p` are passed. -/
def tailsWhile (p : UInt8 → Bool) : List UInt8 → List (List UInt8)
  | [] => [[]]
  | b :: bs => (b :: bs) :: (if p b then tailsWhile p bs else [])

/-- What is left after each slash. -/
def afterSlashes : List UInt8 → List (List UInt8)
  | [] => []
  | b :: bs => if b = slash then bs :: afterSlashes bs else afterSlashes bs

/-- The bytes that a range of a character class stands for: those that spell its ends, and those
between the last byte of the lower end and the first byte of the upper one. -/
def rangeHolds (b : UInt8) (r : Char × Char) : Bool :=
  let lo := Text.encode r.1.toString
  let hi := Text.encode r.2.toString
  lo.contains b || hi.contains b ||
    (r.1 ≠ r.2 && match lo.getLast?, hi.head? with
      | some l, some h => l ≤ b && b ≤ h
      | _, _ => false)

mutual

/-- Whether a piece stands for the empty text alone: a group none of whose branches says more. -/
def Piece.isVoid : Piece → Bool
  | .oneOf branches => branchesVoid branches
  | _ => false

def branchVoid : List Piece → Bool
  | [] => true
  | p :: ps => p.isVoid && branchVoid ps

def branchesVoid : List (List Piece) → Bool
  | [] => true
  | b :: bs => branchVoid b && branchesVoid bs

end

mutual

/-- All that can be left of the bytes once a piece is matched at their start. -/
def Piece.rests : Piece → List UInt8 → List (List UInt8)
  | .literal c, bs => (afterBytes? (Text.encode c.toString) bs).toList
  | .one, bs =>
    match bs with
    | [] => []
    | b :: rest => if b = slash then [] else [rest]
  | .star, bs => tailsWhile (· ≠ slash) bs
  | .deepStart, bs => bs :: afterSlashes bs
  | .deepEnd, bs =>
    match bs with
    | [] => []
    | b :: rest => if b = slash then tails rest else []
  | .deepMiddle, bs =>
    match bs with
    | [] => []
    | b :: rest => if b = slash then rest :: afterSlashes rest else []
  | .charIn negated ranges, bs =>
    match bs with
    | [] => []
    | b :: rest => if ranges.any (rangeHolds b) != negated then [rest] else []
  | .oneOf branches, bs =>
    if branchesVoid branches then [bs] else branchRests branches bs

/-- All that can be left once the pieces are matched one after the other. -/
def sequenceRests : List Piece → List UInt8 → List (List UInt8)
  | [], bs => [bs]
  | p :: ps, bs => (((p.rests bs).eraseDups).flatMap (sequenceRests ps)).eraseDups

/-- All that can be left once one of the branches is matched. A branch that says nothing is none. -/
def branchRests : List (List Piece) → List UInt8 → List (List UInt8)
  | [], _ => []
  | b :: bs, bytes =>
    (if branchVoid b then [] else sequenceRests b bytes) ++ branchRests bs bytes

end

/-- Whether a pattern matches the whole path. Two stars alone match every path. -/
def Glob.accepts (g : Glob) (path : String) : Bool :=
  match g with
  | [.deepStart] => true
  | g => (sequenceRests g (Text.encode path)).any (·.isEmpty)

end DepAtlas.Ignore
