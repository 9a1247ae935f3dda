import DepAtlas.Outline.Basic
import DepAtlas.Syntax.Tree

/-! # Drafts

An outline while its file is being walked over. Lists are kept last first.
-/

namespace DepAtlas.Outline

structure Draft where
  imports : List Import
  declarations : List Declaration
  references : List Reference
  /-- Names that are exported apart from their declaration. -/
  exported : List String
  deriving Repr

namespace Draft

def empty : Draft := ⟨[], [], [], []⟩

def addImport (d : Draft) (i : Import) : Draft := { d with imports := i :: d.imports }

def addImports (d : Draft) (is : List Import) : Draft := is.foldl addImport d

def declare (d : Draft) (x : Declaration) : Draft := { d with declarations := x :: d.declarations }

def refer (d : Draft) (r : Reference) : Draft := { d with references := r :: d.references }

def addExport (d : Draft) (name : String) : Draft := { d with exported := name :: d.exported }

/-- The first declaration that satisfies `p`. -/
def declared? (d : Draft) (p : Declaration → Bool) : Option Declaration :=
  d.declarations.reverse.find? p

def finish (d : Draft) (language : Language) : Outline :=
  ⟨language, d.imports.reverse, d.declarations.reverse, d.references.reverse⟩

end Draft

/-- Marks exactly those top-level declarations as exported that `p` says. -/
def markExported (p : Declaration → Bool) (o : Outline) : Outline :=
  { o with declarations := o.declarations.map fun x =>
      if x.parent.isNone then { x with isExported := p x } else x }

end DepAtlas.Outline
