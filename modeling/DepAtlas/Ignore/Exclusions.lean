import DepAtlas.Error
import DepAtlas.Ignore.Rules

/-! # Excluded paths

A workspace names patterns of paths that are left out, beside the directories that are never
entered.
-/

namespace DepAtlas.Ignore

/-- Directories that hold nothing of interest. -/
def skippedNames : List String := [".git", "node_modules", "target", "__pycache__", ".venv"]

/-- A pattern that cannot be used to exclude anything. -/
structure PatternError where
  pattern : String
  fault : GlobFault
  deriving Repr

/-- The error as a failure: the pattern, and what is wrong with it. -/
def PatternError.toFailure (e : PatternError) : Failure :=
  (Failure.plain ("error parsing glob '!" ++ e.pattern ++ "': " ++ e.fault.message)).within
    ("invalid exclude pattern " ++ e.pattern)

/-- The patterns that a workspace excludes, relative to its root. -/
structure Exclusions where
  root : Path
  rules : Rules
  deriving Repr

namespace Exclusions

/-- The rule of one pattern; blank patterns have none. A pattern cannot be marked as one that keeps:
the mark would be a part of it. -/
def rule? (pattern : String) : Except PatternError (Option Rule) :=
  let pattern := Text.trim pattern
  if pattern = "" then .ok none
  else
    match Rule.ofLine false ("!" ++ pattern) with
    | .ok rule => .ok rule
    | .error fault => .error ⟨pattern, fault⟩

def ofPatterns (root : Path) (patterns : List String) : Except PatternError Exclusions := do
  return ⟨root, (← patterns.mapM rule?).filterMap id⟩

/-- Whether a pattern covers a path relative to the root. -/
def covers (e : Exclusions) (path : String) (isDirectory : Bool) : Bool :=
  (e.rules.verdict? path isDirectory).isSome

/-- Whether a path is excluded, by its text. -/
def excludes (e : Exclusions) (path : String) (isDirectory : Bool) : Bool :=
  (Path.ofText path).steps.any (fun s => skippedNames.contains s.text) ||
    e.covers (relativeText e.root.toText path) isDirectory

end Exclusions

end DepAtlas.Ignore
