import DepAtlas.Scan

/-! # Which changes matter

A scan judges files as it walks down to them. A change names one path at a time, which is judged here
by the same exclusions and ignore files.
-/

namespace DepAtlas.Watch

open Ignore

structure PathFilter where
  root : Path
  respectIgnoreFiles : Bool
  exclusions : Exclusions

namespace PathFilter

/-- The rules of a directory: those of its two ignore files, one after the other. -/
def rulesAt (t : FileTree) (directory : Path) : Rules :=
  Rules.ofFile t (directory.child ".gitignore") ++ Rules.ofFile t (directory.child ".ignore")

/-- The rules about a path, each with the directory it is relative to, the weakest first: those of
the repository, then those of each directory on the way from the root to the path. -/
def rulesFor (f : PathFilter) (t : FileTree) (below : Path) : List (Path × Rules) :=
  (f.root, Rules.ofFile t (f.root.child ".git/info/exclude")) ::
    (List.range (below.steps.length - 1 + 1)).map fun n =>
      let directory : Path := ⟨f.root.rooted, f.root.steps ++ below.steps.take n⟩
      (directory, rulesAt t directory)

/-- Whether changes of a path, given by its text, do not matter. Directories pass, as their removal
concerns the files below them; files must be of a known language. -/
def ignores (f : PathFilter) (t : FileTree) (text : String) : Bool :=
  let path := Path.ofText text
  match path.below? f.root with
  | none => true
  | some below =>
    let isDirectory := match t.locateText text with
      | .ok l => t.lookup l = some .directory
      | .error _ => false
    if !isDirectory && path.extension?.isSome && (Language.ofPath? path).isNone then true
    else if f.exclusions.excludes text isDirectory then true
    else if !f.respectIgnoreFiles then false
    else
      let verdicts := (f.rulesFor t below).filterMap fun (directory, rules) =>
        rules.verdictAbove? (relativeText directory.toText text) isDirectory
      verdicts.getLast? = some .ignore

end PathFilter

end DepAtlas.Watch
