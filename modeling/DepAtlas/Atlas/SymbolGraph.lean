import DepAtlas.Atlas.Basic

/-! # Symbol graphs

The symbol graph of a file has the symbols of the file and the uses of symbols in it. A name that is
used stands for what an import binds to it, or else for a symbol of the same file.
-/

namespace DepAtlas

structure SymbolGraph where
  file : String
  language : Language
  symbols : List Symbol
  edges : List SymbolEdge
  deriving DecidableEq, Repr

namespace SymbolGraph

def toJson (g : SymbolGraph) : Json :=
  .object [("filePath", .str g.file), ("language", .str g.language.name),
    ("symbols", .arr (g.symbols.map Symbol.toJson)),
    ("dependencies", .arr (g.edges.map SymbolEdge.toJson))]

/-- What a local name stands for by an import. -/
structure Bound where
  targetFile : String
  imported : String
  typeOnly : Bool
  /-- Whether the name stands for the module as a whole. -/
  namespaced : Bool
  deriving DecidableEq, Repr

/-- A symbol of a file to which a use leads. -/
structure Target where
  file : String
  name : String
  typeOnly : Bool
  deriving DecidableEq, Repr

/-- The local names that the imports of the file `key` bind, in order. -/
def bounds (r : Resolve.Resolver) (t : FileTree) (key : String) (imports : List Import) :
    List (String × Bound) :=
  imports.flatMap fun i =>
    match r.file? t key i.specifier with
    | none => []
    | some target => i.bindings.map fun b =>
      (b.localName,
        ⟨target.toText, b.imported, b.typeOnly || i.kind.isTypeOnly, b.isNamespace⟩)

/-- What a local name is bound to: the last import that binds it counts. -/
def bound? (bs : List (String × Bound)) (name : String) : Option Bound := bs.reverse.lookup name

/-- The names by which symbols of a file can be used in it, with their qualified names. A symbol of
another one can be used by its qualified name only. -/
def localNames (declarations : List Declaration) : List (String × String) :=
  declarations.flatMap fun d =>
    (d.qualifiedName, d.qualifiedName) ::
      if d.parent.isNone then [(d.name, d.qualifiedName)] else []

/-- The symbols to which a name bound by an import leads. -/
def importTargets (r : Reference) (b : Bound) : List Target :=
  let typeOnly := r.typeOnly || b.typeOnly
  if b.namespaced then r.member.toList.map fun m => ⟨b.targetFile, m, typeOnly⟩
  else
    ⟨b.targetFile, b.imported, typeOnly⟩ ::
      r.member.toList.map fun m => ⟨b.targetFile, b.imported ++ "." ++ m, typeOnly⟩

/-- The symbol of the file itself to which a name leads: a member where there is one. -/
def localTarget (declarations : List Declaration) (r : Reference) (target : String) : String :=
  match r.member with
  | none => target
  | some m =>
    let member := target ++ "." ++ m
    if declarations.any (·.qualifiedName = member) then member else target

/-- The symbol in which a use stands. -/
def userOf (r : Reference) : String := r.origin.getD moduleName

/-- The symbols to which a use leads. -/
def targets (key : String) (o : Outline) (bs : List (String × Bound)) (r : Reference) :
    List Target :=
  match bound? bs r.name with
  | some b => importTargets r b
  | none =>
    match (localNames o.declarations).lookup r.name with
    | none => []
    | some name =>
      let target := localTarget o.declarations r name
      if target = userOf r then [] else [⟨key, target, r.typeOnly⟩]

/-- Whether two edges are the same but for their lines. -/
def sameEdge (e f : SymbolEdge) : Bool :=
  e.source = f.source && e.target = f.target && e.typeOnly = f.typeOnly

/-- Adds an edge unless there is the same already. -/
def addEdge (edges : List SymbolEdge) (e : SymbolEdge) : List SymbolEdge :=
  if edges.any (sameEdge e) then edges else edges ++ [e]

/-- The uses of symbols in the file `key`. -/
def edgesOf (key : String) (o : Outline) (bs : List (String × Bound)) : List SymbolEdge :=
  (o.references.flatMap fun r => (targets key o bs r).map fun t =>
    (⟨symbolId key (userOf r), symbolId t.file t.name, t.file, t.typeOnly, r.line⟩ :
      SymbolEdge)).foldl addEdge []

/-- The symbol graph of the file `key`, by its outline. -/
def ofOutline (r : Resolve.Resolver) (t : FileTree) (key : String) (o : Outline) : SymbolGraph where
  file := key
  language := o.language
  symbols := o.declarations.map (Symbol.ofDeclaration key)
  edges := edgesOf key o (bounds r t key o.imports)

end SymbolGraph

/-- The symbol graph of a file as it is now. -/
def Atlas.symbolGraph (a : Atlas) (w : World) (p : Path) : Except ToolError SymbolGraph :=
  (a.outline w p).map (SymbolGraph.ofOutline a.resolver w.tree (w.tree.key p))

end DepAtlas
