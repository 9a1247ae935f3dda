import DepAtlas.Scan

/-! # Candidate files

A module is named without saying which file holds it. The candidates are tried in a fixed order: the
path itself, the path with each extension, a source for a path to what is made of it, and the files
that stand for a directory.
-/

namespace DepAtlas.Resolve

def scriptExtensions : List String := ["ts", "tsx", "mts", "cts", "js", "jsx", "mjs", "cjs"]

def pythonExtensions : List String := ["py", "pyi"]

def rustExtensions : List String := ["rs"]

/-- All extensions, those of a language first. -/
def extensionOrder : Language → List String
  | .python => pythonExtensions ++ scriptExtensions ++ rustExtensions
  | .rust => rustExtensions ++ scriptExtensions ++ pythonExtensions
  | .typeScript | .tsx | .javaScript => scriptExtensions ++ pythonExtensions ++ rustExtensions

/-- Sources from which a path with the extension of a made file may come. -/
def sourcesOf (base : Path) : List Path :=
  match base.extension? with
  | some e =>
    if ["js", "jsx", "mjs", "cjs"].contains e then
      ["ts", "tsx", "mts", "cts"].map base.withExtension
    else []
  | none => []

/-- The files that may stand for a path, in the order in which they are tried. -/
def candidates (t : FileTree) (base : Path) (language : Language) : List Path :=
  let base := base.clean
  let order := extensionOrder language
  [base] ++ order.map (fun e => base.extended ("." ++ e)) ++ sourcesOf base ++
    if t.isDirectory base then
      (order.map ("index." ++ ·) ++ ["__init__.py", "mod.rs"]).map base.child
    else []

/-- The first candidate that is a file. -/
def candidate? (t : FileTree) (base : Path) (language : Language) : Option Path :=
  (candidates t base language).find? t.isFile

end DepAtlas.Resolve
