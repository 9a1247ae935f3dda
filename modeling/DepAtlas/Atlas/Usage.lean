import DepAtlas.Atlas.Basic

/-! # Use of imports

An import counts as used if a name that it binds occurs in the file outside its imports. Whatever
speaks for a use counts, words in comments and texts included, so that no import that is needed is
told to be unused.
-/

namespace DepAtlas

/-- What is known of the use of an import. -/
structure ImportUsage where
  target : String
  specifier : String
  kind : ImportKind
  line : Nat
  used : Bool
  usedBindings : List String
  unusedBindings : List String
  error : Option String
  deriving DecidableEq, Repr

def ImportUsage.toJson (u : ImportUsage) : Json :=
  .objectOf [some ("targetPath", .str u.target), some ("moduleSpecifier", .str u.specifier),
    some ("importType", .str u.kind.name), some ("line", .nat u.line), some ("used", .bool u.used),
    some ("usedBindings", Json.strings u.usedBindings),
    some ("unusedBindings", Json.strings u.unusedBindings), Json.field? "error" u.error .str]

structure UsageReport where
  file : String
  imports : List ImportUsage
  deriving DecidableEq, Repr

namespace UsageReport

def usedCount (r : UsageReport) : Nat := r.imports.countP (·.used)

def unusedCount (r : UsageReport) : Nat := r.imports.countP (!·.used)

def toJson (r : UsageReport) : Json :=
  .object [("filePath", .str r.file), ("dependencies", .arr (r.imports.map ImportUsage.toJson)),
    ("usedCount", .nat r.usedCount), ("unusedCount", .nat r.unusedCount)]

end UsageReport

namespace Usage

/-- How the brackets of a line change the depth. -/
def bracketDepth (line : String) : Int :=
  line.toList.foldl (fun depth c =>
    if ['\x7b', '(', '['].contains c then depth + 1
    else if ['\x7d', ')', ']'].contains c then depth - 1
    else depth) 0

/-- The number of lines of a statement: it ends when its brackets are closed. -/
def statementLength (depth : Int) : List String → Nat
  | [] => 0
  | line :: rest =>
    let depth := depth + bracketDepth line
    if depth ≤ 0 then 1 else statementLength depth rest + 1

/-- The lines of an import, as their first and the one after the last. -/
def importLines (lines : List String) (i : Import) : Nat × Nat :=
  let start := i.line - 1
  (start, start + statementLength 0 (lines.drop start))

/-- Whether an import is a statement of its own, and not part of an expression. -/
def isStatement (i : Import) : Bool := i.kind ≠ .dynamic && i.kind ≠ .required

def isWordCharacter (c : Char) : Bool := Text.isAlphanumeric c || c = '_' || c = '$'

/-- The words of a source in the lines outside its imports. -/
def wordsOutside (source : String) (imports : List Import) : List String :=
  let lines := Text.lines source
  let skipped := (imports.filter isStatement).map (importLines lines)
  (lines.zipIdx.filter fun (_, n) => !skipped.any fun (start, stop) => start ≤ n && n < stop).flatMap
    fun (line, _) => (Text.pieces (!isWordCharacter ·) line).filter (· ≠ "")

/-- The names for whose use something speaks. -/
def evidence (source : String) (o : Outline) : List String :=
  o.references.map (·.name) ++ wordsOutside source o.imports

/-- The name under which a declared module is used. -/
def moduleName (specifier : String) : String :=
  (Text.splitText "::" specifier).getLast?.getD specifier

/-- What is known of an import that leads to a file. -/
def check (t : FileTree) (mentioned : String → Bool) (i : Import) (target : Path) :
    Except Failure ImportUsage :=
  let usage (used : Bool) (usedBindings unusedBindings : List String) : ImportUsage :=
    ⟨target.toText, i.specifier, i.kind, i.line, used, usedBindings, unusedBindings, none⟩
  match t.locate target with
  | .error fault => .error ((Failure.ofFault fault).within ("stat " ++ target.toText))
  | .ok _ =>
    if !t.isFile target then .error (.plain (target.toText ++ " is no longer a file"))
    else if i.kind = .childModule then .ok (usage (mentioned (moduleName i.specifier)) [] [])
    else if i.bindings.isEmpty then .ok (usage true [] [])
    else
      let names := i.bindings.map (·.localName)
      .ok (usage (names.any mentioned) (names.filter mentioned) (names.filter (!mentioned ·)))

/-- As `check`; an import that cannot be checked counts as used. -/
def checked (t : FileTree) (mentioned : String → Bool) (i : Import) (target : Path) : ImportUsage :=
  match check t mentioned i target with
  | .ok usage => usage
  | .error failure =>
    ⟨target.toText, i.specifier, i.kind, i.line, true, [], [], some failure.message⟩

end Usage

/-- The use of the imports of a file that lead to files of the workspace; of all of them, or of those
that lead to `targets`. -/
def Atlas.usage (a : Atlas) (w : World) (p : Path) (targets : Option (List Path)) :
    Except ToolError UsageReport := do
  let key := w.tree.key p
  let file := Path.ofText key
  if !w.tree.isFile file then throw (.fileNotFound key)
  match w.tree.readText file with
  | .error fault => throw ((Failure.ofFault fault).within ("read " ++ key)).toToolError
  | .ok source =>
    match w.parsing.outlineIn a.closed key source with
    | .error e => throw e.toToolError
    | .ok o =>
      let wanted (target : Path) : Bool :=
        targets.all fun ts => (ts.map w.tree.key).contains (w.tree.key target)
      let names := Usage.evidence source o
      return ⟨key, o.imports.filterMap fun i =>
        ((a.resolver.file? w.tree key i.specifier).filter wanted).map
          (Usage.checked w.tree names.contains i)⟩

end DepAtlas
