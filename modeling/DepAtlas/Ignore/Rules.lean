import DepAtlas.FileTree
import DepAtlas.Ignore.Glob
import DepAtlas.Text.Blank

/-! # Ignore rules

A line of an ignore file is a rule: a pattern, whether it keeps or ignores what it matches, and
whether it is about directories only. Rules are written relative to a directory, and of all rules
that match, the last one decides.
-/

namespace DepAtlas.Ignore

/-- What rules say of a path. -/
inductive Verdict where
  | ignore
  | keep
  deriving DecidableEq, Repr

structure Rule where
  pattern : Glob
  /-- Whether what matches is kept rather than ignored. -/
  keeps : Bool
  onlyDirectories : Bool
  deriving Repr

namespace Rule

/-- A line without its trailing blanks, unless the last of them is escaped. -/
def trimLine (line : String) : String :=
  if ['\\', ' '].isSuffixOf line.toList then line else Text.dropTrailing Text.isBlank line

/-- Splits off the marks at the start of a line: whether it keeps, whether it is bound to the
directory of the rules, and the rest. -/
def marks : List Char → Bool × Bool × List Char
  | '\\' :: '!' :: rest => (false, false, '!' :: rest)
  | '\\' :: '#' :: rest => (false, false, '#' :: rest)
  | '!' :: '/' :: rest => (true, true, rest)
  | '!' :: rest => (true, false, rest)
  | '/' :: rest => (false, true, rest)
  | rest => (false, false, rest)

/-- Splits off the slash at the end of a pattern, and an escape before it. -/
def directoryMark (pattern : List Char) : Bool × List Char :=
  if pattern.getLast? = some '/' then
    let front := pattern.dropLast
    (true, if front.getLast? = some '\\' then front.dropLast else front)
  else (false, pattern)

/-- The pattern to match from the directory of the rules on. A pattern without a slash matches at
any depth, and one that ends in all that is below a directory does not match the directory. -/
def anchored (bound : Bool) (pattern : String) : String :=
  let p :=
    if bound || pattern.contains '/' || pattern = "**" then pattern else "**/" ++ pattern
  if "/**".toList.isSuffixOf p.toList then p ++ "/*" else p

/-- The rule of a line, if the line holds one. -/
def ofLine (lenient : Bool) (line : String) : Except GlobFault (Option Rule) := do
  if line.toList.head? = some '#' then return none
  let line := trimLine line
  if line = "" then return none
  let (keeps, bound, rest) := marks line.toList
  let (onlyDirectories, pattern) := directoryMark rest
  let glob ← Glob.parse lenient (anchored bound (String.ofList pattern))
  return some ⟨glob, keeps, onlyDirectories⟩

def verdict (r : Rule) : Verdict := if r.keeps then .keep else .ignore

/-- Whether a rule is about a path relative to the directory of the rules. -/
def covers (r : Rule) (path : String) (isDirectory : Bool) : Bool :=
  (!r.onlyDirectories || isDirectory) && r.pattern.accepts path

end Rule

/-- Rules in the order of their lines. -/
abbrev Rules := List Rule

namespace Rules

/-- What the last rule about a path says. -/
def verdict? (rules : Rules) (path : String) (isDirectory : Bool) : Option Verdict :=
  (rules.reverse.find? (·.covers path isDirectory)).map Rule.verdict

/-- The first character of a file may be a mark of its byte order, which is no part of its text. -/
def withoutOrderMark (line : String) : String :=
  Text.dropLeading (· = '\ufeff') line

/-- The lines of a file before the first that is no text. -/
def textLines (content : List UInt8) : List String :=
  let whole := Text.cut (· = '\n'.toNat.toUInt8) content
  let ended := whole.dropLast ++ (whole.getLast?.filter (· ≠ [])).toList
  let withoutReturns := ended.zipIdx.map fun (line, n) =>
    if n + 1 < whole.length && line.getLast? = some '\r'.toNat.toUInt8 then line.dropLast else line
  ((withoutReturns.map Text.decode?).takeWhile Option.isSome).filterMap id

/-- The rules of an ignore file. A line that is no rule is passed over. -/
def ofContent (content : List UInt8) : Rules :=
  let lines := match textLines content with
    | [] => []
    | first :: rest => withoutOrderMark first :: rest
  lines.filterMap fun line =>
    match Rule.ofLine true line with
    | .ok rule => rule
    | .error _ => none

/-- The rules of the file at a path, if there is one. -/
def ofFile (t : FileTree) (p : Path) : Rules :=
  match t.read p with
  | .ok content => ofContent content
  | .error _ => []

end Rules

/-- The texts of the paths above a path. A step that stays counts only where it comes first. -/
def above (path : String) : List String :=
  let parts := match Text.pieces (· = '/') path with
    | [] => []
    | first :: rest =>
      (if first = "" then [] else [first]) ++ rest.filter fun s => s ≠ "" && s ≠ "."
  (List.range parts.length).reverse.map fun n => "/".intercalate (parts.take n)

/-- What rules say of a path or, if they say nothing, of the nearest directory above it of which they
say something. -/
def Rules.verdictAbove? (rules : Rules) (path : String) (isDirectory : Bool) : Option Verdict :=
  (rules.verdict? path isDirectory).or <|
    (above path).findSome? fun directory => rules.verdict? directory true

/-- A path relative to a directory, by their texts. -/
def relativeText (directory path : String) : String :=
  let path := (Text.stripOpening? "./" path).getD path
  if path.contains '/' then
    match Text.stripOpening? directory path with
    | some rest => (Text.stripOpening? "/" rest).getD rest
    | none => path
  else path

end DepAtlas.Ignore
