import DepAtlas.Atlas.SymbolGraph

/-! # Dependents of symbols

Who uses a symbol is told from the index of callers. Before a question about a file is answered, the
file and all files that import it are entered into the index.
-/

namespace DepAtlas

/-- The direct dependents of a symbol. -/
structure Dependents where
  file : String
  name : String
  ids : List String
  callers : List Caller
  deriving DecidableEq, Repr

namespace Dependents

def typeOnlyCount (d : Dependents) : Nat := d.callers.countP (·.typeOnly)

def runtimeCount (d : Dependents) : Nat := d.callers.countP (!·.typeOnly)

def toJson (d : Dependents) : Json :=
  .object [("filePath", .str d.file), ("symbolName", .str d.name),
    ("symbolIds", Json.strings d.ids), ("dependents", .arr (d.callers.map Caller.toJson)),
    ("runtimeCount", .nat d.runtimeCount), ("typeOnlyCount", .nat d.typeOnlyCount)]

end Dependents

/-- The callers of a symbol, and whether its file had been entered before the question. -/
structure CallersAnswer where
  ids : List String
  callers : List Caller
  fromIndex : Bool
  deriving DecidableEq, Repr

def CallersAnswer.toJson (c : CallersAnswer) : Json :=
  .object [("symbolIds", Json.strings c.ids), ("callers", .arr (c.callers.map Caller.toJson)),
    ("fromIndex", .bool c.fromIndex)]

namespace Callers

/-- Of two uses by the same symbol the one that counts: at run time rather than as a type, and then
the earlier one. -/
def prefer (kept new : Caller) : Caller :=
  if (kept.typeOnly && !new.typeOnly) || (kept.typeOnly = new.typeOnly && new.line < kept.line)
  then new
  else kept

/-- The use that counts among uses by the same symbol. -/
def strongest? : List Caller → Option Caller
  | [] => none
  | c :: cs => some (cs.foldl prefer c)

/-- The symbols other than `ids` that use one of `ids`, in the order of their ids, each once. -/
def usersOf (c : Callers) (ids : List String) : List Caller :=
  let uses := (ids.flatMap c.lookup).filter fun u => !ids.contains u.symbol
  (Text.sortedOnce (uses.map (·.symbol))).filterMap fun id =>
    strongest? (uses.filter (·.symbol = id))

end Callers

namespace Atlas

/-- Enters the symbol uses of a file, unless they are entered. A file without a symbol graph counts as
entered too. -/
def enterUses (w : World) (a : Atlas) (file : String) : Atlas :=
  if a.callers.hasEntered file then a
  else
    let callers := match a.symbolGraph w (.ofText file) with
      | .ok graph => graph.edges.foldl (Callers.record · file ·) a.callers
      | .error _ => a.callers
    { a with callers := callers.enter file }

/-- Enters the symbol uses of the file `key` and of all files that import it; tells whether those of
the file were entered before. -/
def prepareCallers (a : Atlas) (w : World) (key : String) : Bool × Atlas :=
  let p := Path.ofText key
  let a := (a.analyzeLenient w p).2
  let files := Text.sortedOnce (key :: (a.referencesTo w p).map (·.source))
  (a.callers.hasEntered key, files.foldl (enterUses w) a)

/-- The ids of the symbols of a file with a bare or a qualified name. -/
def symbolIds (a : Atlas) (w : World) (p : Path) (name : String) :
    Except ToolError (List String) × Atlas :=
  match a.analyze w p with
  | (.error e, a) => (.error e, a)
  | (.ok node, a) =>
    let ids := (node.symbols.filter (·.hasName name)).map (·.id)
    if ids.isEmpty then
      (.error (.validation ("symbol " ++ name ++ " not found in " ++ node.path)), a)
    else (.ok ids, a)

/-- The direct dependents of a symbol of a file. -/
def dependents (a : Atlas) (w : World) (p : Path) (name : String) :
    Except ToolError Dependents × Atlas :=
  match a.symbolIds w p name with
  | (.error e, a) => (.error e, a)
  | (.ok ids, a) =>
    let key := w.tree.key p
    let (_, a) := a.prepareCallers w key
    (.ok ⟨key, name, ids, a.callers.usersOf ids⟩, a)

/-- The callers of a symbol of a file. -/
def callersOf (a : Atlas) (w : World) (p : Path) (name : String) :
    Except ToolError CallersAnswer × Atlas :=
  match a.symbolIds w p name with
  | (.error e, a) => (.error e, a)
  | (.ok ids, a) =>
    let (fromIndex, a) := a.prepareCallers w (w.tree.key p)
    (.ok ⟨ids, a.callers.usersOf ids, fromIndex⟩, a)

/-- The direct dependents of the symbol with an id. What stands outside all declarations has none. -/
def dependentsOfId (a : Atlas) (w : World) (id : String) : List Caller × Atlas :=
  match splitSymbolId? id with
  | none => ([], a)
  | some (file, name) =>
    if name = moduleName then ([], a)
    else
      let (_, a) := a.prepareCallers w file
      (a.callers.usersOf [id], a)

end Atlas

end DepAtlas
