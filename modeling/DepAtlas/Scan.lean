import DepAtlas.Ignore.Exclusions
import DepAtlas.Outline.Basic

/-! # The files of a workspace

A scan lists the files below the root of a workspace whose language is known. It does not enter a
directory that is skipped, excluded or ignored. Each directory, and each directory above the root,
may hold rules of three kinds; of one kind the nearest rules that say something decide, and a kind
that says something decides over the kinds after it.
-/

namespace DepAtlas

/-- The language that the name of a file tells. -/
def Language.ofPath? (p : Path) : Option Language := p.extension?.bind Language.ofExtension?

namespace Scan

open Ignore

/-- The rules that one directory holds, the stronger kinds first. -/
structure DirectoryRules where
  ignoreFile : Rules
  gitIgnore : Rules
  gitExclude : Rules

namespace DirectoryRules

def read (t : FileTree) (directory : Path) : DirectoryRules :=
  ⟨.ofFile t (directory.child ".ignore"), .ofFile t (directory.child ".gitignore"),
    .ofFile t (directory.child ".git/info/exclude")⟩

def isEmpty (r : DirectoryRules) : Bool :=
  r.ignoreFile.isEmpty && r.gitIgnore.isEmpty && r.gitExclude.isEmpty

end DirectoryRules

/-- The rules of all directories that hold any. -/
def rulesOf (t : FileTree) : List (Location × DirectoryRules) :=
  let directories := [] :: (t.entries.filter (·.2 = .directory)).map (·.1)
  (directories.map fun l => (l, DirectoryRules.read t (Location.path l))).filter
    fun x => !x.2.isEmpty

/-- The names of a place below a directory as the text of a path. -/
def pathBelow (directory l : Location) : String := "/".intercalate (l.drop directory.length)

/-- What the rules of the directories above a place say of it. -/
def verdict? (table : List (Location × DirectoryRules)) (l : Location) (isDirectory : Bool) :
    Option Verdict :=
  let nearest := (List.range l.length).reverse.filterMap fun n =>
    table.find? (·.1 = l.take n)
  let say (kind : DirectoryRules → Rules) : Option Verdict :=
    nearest.findSome? fun (directory, rules) =>
      (kind rules).verdict? (pathBelow directory l) isDirectory
  (say (·.ignoreFile)).or <| (say (·.gitIgnore)).or (say (·.gitExclude))

/-- Whether a scan passes over what stands at a place below the root. -/
def passesOver (e : Exclusions) (table : List (Location × DirectoryRules)) (root l : Location)
    (isDirectory : Bool) : Bool :=
  e.covers (pathBelow root l) isDirectory ||
    verdict? table l isDirectory = some .ignore ||
    (isDirectory && skippedNames.contains (l.getLast?.getD ""))

/-- Whether a scan from the root comes to a place. -/
def reaches (e : Exclusions) (table : List (Location × DirectoryRules)) (root l : Location)
    (isDirectory : Bool) : Bool :=
  root.isPrefixOf l && root.length < l.length &&
    (List.range (l.length - root.length)).all fun n =>
      !passesOver e table root (l.take (root.length + n + 1))
        (isDirectory || root.length + n + 1 < l.length)

structure Options where
  respectIgnoreFiles : Bool := false
  exclude : List String := []
  /-- At most so many files are listed; zero sets no bound. -/
  maxFiles : Nat := 0

/-- The files of a workspace, each once, in the order of their paths. -/
def files (t : FileTree) (root : Path) (options : Options) : Except PatternError (List Path) := do
  let e ← Exclusions.ofPatterns root options.exclude
  match t.locate root with
  | .error _ => return []
  | .ok base =>
    let table := if options.respectIgnoreFiles then rulesOf t else []
    let found := t.entries.filterMap fun (l, entry) =>
      match entry with
      | .file _ =>
        let p := Location.path l
        if (Language.ofPath? p).isSome && reaches e table base l false then some p else none
      | _ => none
    let sorted := (found.mergeSort Path.le).eraseReps
    return if options.maxFiles = 0 then sorted else sorted.take options.maxFiles

end Scan

end DepAtlas
