import DepAtlas.Atlas.Dependents

/-! # Inside a file

Two questions about one file: which of its symbols nobody uses, and how its symbols use each other.
-/

namespace DepAtlas

/-- Why a symbol counts as unused. -/
inductive UnusedReason where
  | onlyExported
  | neverReferenced
  deriving DecidableEq, Repr

def UnusedReason.message : UnusedReason → String
  | onlyExported => "exported but not referenced by any other indexed file"
  | neverReferenced => "never referenced"

structure UnusedSymbols where
  file : String
  total : Nat
  unused : List (Symbol × UnusedReason)
  deriving DecidableEq, Repr

def UnusedSymbols.toJson (u : UnusedSymbols) : Json :=
  .object [("filePath", .str u.file), ("totalSymbols", .nat u.total),
    ("unused", .arr (u.unused.map fun (s, reason) =>
      .object [("symbol", s.toJson), ("reason", .str reason.message)]))]

/-- A use at run time in a file. -/
structure LogicEdge where
  source : String
  target : String
  line : Nat
  external : Bool
  deriving DecidableEq, Repr

def LogicEdge.toJson (e : LogicEdge) : Json :=
  .object [("from", .str e.source), ("to", .str e.target), ("line", .nat e.line),
    ("external", .bool e.external)]

structure FileLogic where
  file : String
  symbols : List Symbol
  calls : List LogicEdge
  entryPoints : List String
  internalCalls : Nat
  externalCalls : Nat
  deriving DecidableEq, Repr

def FileLogic.toJson (l : FileLogic) : Json :=
  .object [("filePath", .str l.file), ("symbols", .arr (l.symbols.map Symbol.toJson)),
    ("calls", .arr (l.calls.map LogicEdge.toJson)), ("entryPoints", Json.strings l.entryPoints),
    ("internalCalls", .nat l.internalCalls), ("externalCalls", .nat l.externalCalls)]

namespace SymbolGraph

/-- Names that are used by what runs a program rather than by its code. -/
def entryNames : List String := ["main", "__init__", "constructor", "__main__"]

/-- Whether a symbol can be told to be unused at all. -/
def isJudged (s : Symbol) : Bool := s.kind ≠ .method && !entryNames.contains s.name

/-- Why nobody uses a symbol, by the index of callers. -/
def unusedReason? (g : SymbolGraph) (c : Callers) (s : Symbol) : Option UnusedReason :=
  if (c.lookup s.id).any (·.file ≠ g.file) then none
  else if s.isExported then some .onlyExported
  else if g.edges.any fun e =>
      e.targetFile = g.file && e.source ≠ e.target && e.target = s.id then none
  else some .neverReferenced

/-- The uses at run time. -/
def logicEdges (g : SymbolGraph) : List LogicEdge :=
  (g.edges.filter (!·.typeOnly)).map fun e => ⟨e.source, e.target, e.line, e.targetFile ≠ g.file⟩

/-- How the symbols of a file use each other. Uses of other files are listed only if they are
asked for. -/
def logic (g : SymbolGraph) (includeExternal : Bool) : FileLogic :=
  let all := g.logicEdges
  let calls := all.filter fun e => includeExternal || !e.external
  let isCalled (id : String) : Bool :=
    all.any fun e => !e.external && e.source ≠ e.target && e.target = id
  let uncalled := (g.symbols.filter fun s => s.kind.isCallable && !isCalled s.id).map (·.id)
  let top := symbolId g.file moduleName
  { file := g.file
    symbols := g.symbols
    calls
    entryPoints := if calls.any (·.source = top) then top :: uncalled else uncalled
    internalCalls := all.countP (!·.external)
    externalCalls := all.countP (·.external) }

end SymbolGraph

namespace Atlas

/-- The symbols of a file that nobody uses, as far as the files that import it are known. -/
def unusedSymbols (a : Atlas) (w : World) (p : Path) : Except ToolError UnusedSymbols × Atlas :=
  match a.symbolGraph w p with
  | .error e => (.error e, a)
  | .ok graph =>
    let (_, a) := a.prepareCallers w graph.file
    (.ok ⟨graph.file, graph.symbols.length,
      (graph.symbols.filter SymbolGraph.isJudged).filterMap fun s =>
        (graph.unusedReason? a.callers s).map (s, ·)⟩, a)

def fileLogic (a : Atlas) (w : World) (p : Path) (includeExternal : Bool) :
    Except ToolError FileLogic :=
  (a.symbolGraph w p).map (·.logic includeExternal)

end Atlas

end DepAtlas
