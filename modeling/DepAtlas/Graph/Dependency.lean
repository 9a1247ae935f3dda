import DepAtlas.Graph.Symbol

/-! # Dependencies between files -/

namespace DepAtlas

/-- An import of one file of the workspace by another. -/
structure Dependency where
  source : String
  target : String
  kind : ImportKind
  line : Nat
  specifier : String
  deriving DecidableEq, Repr

namespace Dependency

open Json.Decode

def toJson (d : Dependency) : Json :=
  .object [("sourcePath", .str d.source), ("targetPath", .str d.target),
    ("importType", .str d.kind.name), ("line", .nat d.line), ("moduleSpecifier", .str d.specifier)]

def shape : Shape :=
  ⟨"struct Dependency",
    [.of "sourcePath" text, .of "targetPath" text, .of "importType" ImportKind.ofJson,
      .of "line" count, .of "moduleSpecifier" text], false⟩

def ofJson : Json.Decode Dependency := fun j => do
  let fields ← shape.read .direct j
  return ⟨← fields.required "sourcePath" text, ← fields.required "targetPath" text,
    ← fields.required "importType" ImportKind.ofJson, ← fields.required "line" count,
    ← fields.required "moduleSpecifier" text⟩

end Dependency

/-- An import that leads to no source file of the workspace. -/
structure Unresolved where
  source : String
  specifier : String
  kind : ImportKind
  line : Nat
  reason : String
  deriving DecidableEq, Repr

def Unresolved.toJson (u : Unresolved) : Json :=
  .object [("source", .str u.source), ("moduleSpecifier", .str u.specifier),
    ("importType", .str u.kind.name), ("line", .nat u.line), ("reason", .str u.reason)]

/-- What is known of a file: where its imports lead, and its symbols. -/
structure FileNode where
  path : String
  language : Language
  dependencies : List Dependency
  unresolved : List Unresolved
  symbols : List Symbol
  deriving DecidableEq, Repr

namespace FileNode

/-- A file without edges. -/
def leaf (path : String) (language : Language) : FileNode := ⟨path, language, [], [], []⟩

def toJson (n : FileNode) : Json :=
  .object [("path", .str n.path), ("language", .str n.language.name),
    ("dependencies", .arr (n.dependencies.map Dependency.toJson)),
    ("unresolved", .arr (n.unresolved.map Unresolved.toJson)),
    ("symbols", .arr (n.symbols.map Symbol.toJson))]

end FileNode

end DepAtlas
