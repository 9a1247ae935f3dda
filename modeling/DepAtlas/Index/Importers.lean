import DepAtlas.Graph.Dependency
import DepAtlas.Text.Order

/-! # Who imports a file

The dependencies of files, turned round: for each file, the imports that lead to it. What a file has
recorded can be taken out again, whatever its dependencies are by then.
-/

namespace DepAtlas

/-- An import, seen from the file that it leads to. -/
structure Importer where
  source : String
  line : Nat
  specifier : String
  kind : ImportKind
  deriving DecidableEq, Repr

namespace Importer

def ofDependency (d : Dependency) : Importer := ⟨d.source, d.line, d.specifier, d.kind⟩

def toJson (i : Importer) : Json :=
  .object [("sourcePath", .str i.source), ("line", .nat i.line),
    ("moduleSpecifier", .str i.specifier), ("importType", .str i.kind.name)]

end Importer

structure Importers where
  /-- Each target with an import that leads to it, in the order of recording. -/
  edges : List (String × Importer)
  /-- Each source with a target that it recorded. -/
  recorded : List (String × String)
  deriving Repr

namespace Importers

def empty : Importers := ⟨[], []⟩

/-- Records an import under a source; what is there already is not recorded twice. -/
def record (i : Importers) (source target : String) (entry : Importer) : Importers where
  edges := if i.edges.contains (target, entry) then i.edges else i.edges ++ [(target, entry)]
  recorded :=
    if i.recorded.contains (source, target) then i.recorded
    else i.recorded ++ [(source, target)]

def recordDependency (i : Importers) (d : Dependency) : Importers :=
  i.record d.source d.target (.ofDependency d)

/-- Whether an edge goes when `source` is taken out. -/
def goesWith (i : Importers) (source : String) (edge : String × Importer) : Bool :=
  i.recorded.contains (source, edge.1) && edge.2.source = source

/-- Takes out what a source has recorded, and tells how many imports went. -/
def remove (i : Importers) (source : String) : Nat × Importers :=
  ((i.edges.filter (i.goesWith source)).length,
    ⟨i.edges.filter (!i.goesWith source ·), i.recorded.filter (·.1 ≠ source)⟩)

/-- The imports that lead to a file. -/
def lookup (i : Importers) (target : String) : List Importer :=
  (i.edges.filter (·.1 = target)).map (·.2)

/-- The files that import a file, in order. -/
def sourcesOf (i : Importers) (target : String) : List String :=
  Text.sortedOnce ((i.lookup target).map (·.source))

/-- How many files are imported. -/
def targetCount (i : Importers) : Nat := (Text.sortedOnce (i.edges.map (·.1))).length

end Importers

end DepAtlas
