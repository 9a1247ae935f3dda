import DepAtlas.Error
import DepAtlas.Json.Decode
import DepAtlas.Json.Relaxed

/-! # Aliases

An alias stands for a directory or a file at the start of a module's name. Aliases are configured, or
come from the configuration of a compiler; those that were added first win over later ones for the
same opening, and of all that match the longest one is used.
-/

namespace DepAtlas.Resolve

structure Alias where
  /-- How a name starts that the alias is for. -/
  opening : String
  /-- The text of the path that it stands for. -/
  target : String
  deriving DecidableEq, Repr

namespace Alias

/-- Whether the alias is for a name: what follows the opening is a whole part of it. -/
def covers (a : Alias) (spec : String) : Bool :=
  match Text.stripOpening? a.opening spec with
  | none => false
  | some rest =>
    a.opening.toList.getLast? = some '/' || rest = "" || rest.toList.head? = some '/'

/-- The text of the path that a name stands for. -/
def apply (a : Alias) (spec : String) : String :=
  let rest := Text.dropLeading (· = '/') ((Text.stripOpening? a.opening spec).getD "")
  if rest = "" then a.target else Path.joinText a.target rest

/-- Longer openings first, then by their characters. -/
def before (a b : Alias) : Bool :=
  b.opening.utf8ByteSize < a.opening.utf8ByteSize ||
    (a.opening.utf8ByteSize = b.opening.utf8ByteSize && a.opening < b.opening)

end Alias

/-- Aliases in the order in which they are tried, with one for each opening. -/
abbrev Aliases := List Alias

namespace Aliases

def insertSorted (a : Alias) : Aliases → Aliases
  | [] => [a]
  | b :: rest => if a.before b then a :: b :: rest else b :: insertSorted a rest

def withoutStars (s : String) : String := Text.dropTrailing (· = '*') s

/-- Adds an alias, unless there is one for its opening or the opening is empty. -/
def add (aliases : Aliases) (opening target : String) : Aliases :=
  let opening := withoutStars opening
  if opening = "" || aliases.any (·.opening = opening) then aliases
  else insertSorted ⟨opening, target⟩ aliases

/-- The aliases of a table from openings to paths, which start at the root. -/
def ofTable (root : Path) (table : List (String × String)) : Aliases :=
  table.foldl (fun aliases (opening, target) =>
    aliases.add opening (Path.joinText root.toText (withoutStars target))) []

/-- What the configuration of a compiler says about paths. -/
structure CompilerPaths where
  baseUrl : Option String := none
  /-- The targets of each pattern, in the order of the patterns. -/
  paths : List (String × List String) := []

namespace CompilerPaths

open Json.Decode

def optionsShape : Shape :=
  ⟨"struct CompilerOptions",
    [.of "baseUrl" (option text), .of "paths" (table (list text)) true], false⟩

/-- A record given as an array may have more elements than fields here. -/
def cut (n : Nat) : Json → Json
  | .arr items => .arr (items.take n)
  | j => j

def ofOptions : Json.Decode CompilerPaths := fun j => do
  let fields ← optionsShape.read .direct (cut 2 j)
  return ⟨← fields.optional "baseUrl" text, ← fields.orElse "paths" [] (table (list text))⟩

def shape : Shape :=
  ⟨"struct TsConfig", [.of "compilerOptions" ofOptions true], false⟩

def ofJson : Json.Decode CompilerPaths := fun j => do
  let fields ← shape.read .direct (cut 1 j)
  fields.orElse "compilerOptions" {} ofOptions

end CompilerPaths

/-- The configuration file of a compiler at the root, if there is one. -/
def configuration? (t : FileTree) (root : Path) : Option Path :=
  (["tsconfig.json", "jsconfig.json"].map root.child).find? t.isFile

/-- Adds the paths of the compiler's configuration. Each pattern leads to its first target; the
patterns are taken in the order of their characters. -/
def addCompilerPaths (aliases : Aliases) (t : FileTree) (root : Path) : Except Failure Aliases := do
  match configuration? t root with
  | none => return aliases
  | some file =>
    match t.readText file with
    | .error fault => throw ((Failure.ofFault fault).within ("read " ++ file.toText))
    | .ok source =>
      match (Json.Relaxed.read? source).map CompilerPaths.ofJson with
      | some (.ok config) =>
        let base := Path.joinText root.toText (config.baseUrl.getD ".")
        return config.paths.foldl (fun aliases (pattern, targets) =>
          match targets with
          | [] => aliases
          | first :: _ => aliases.add pattern (Path.joinText base (withoutStars first))) aliases
      | some (.error e) =>
        throw ((Failure.plain e.message).within ("parse " ++ file.toText))
      | none => throw ((Failure.plain "").within ("parse " ++ file.toText))

end Aliases

end DepAtlas.Resolve
