import DepAtlas.Atlas.Dependents

/-! # Execution traces

A trace follows the uses at run time from a symbol on, level by level, to a given depth.
-/

namespace DepAtlas

/-- A use met by a trace. -/
structure CallStep where
  caller : String
  callee : String
  calleeFile : String
  depth : Nat
  line : Nat
  deriving DecidableEq, Repr

def CallStep.toJson (s : CallStep) : Json :=
  .object [("caller", .str s.caller), ("callee", .str s.callee), ("calleeFile", .str s.calleeFile),
    ("depth", .nat s.depth), ("line", .nat s.line)]

structure Trace where
  entry : List String
  calls : List CallStep
  /-- The symbols met, each once. -/
  visited : List String
  /-- Whether the depth kept the trace from going on. -/
  truncated : Bool
  deriving DecidableEq, Repr

namespace Trace

def toJson (t : Trace) : Json :=
  .object [("entry", Json.strings t.entry), ("calls", .arr (t.calls.map CallStep.toJson)),
    ("visitedSymbols", .nat t.visited.length), ("maxDepthReached", .bool t.truncated)]

/-- The uses at run time in the symbol with an id. Files outside the workspace are not looked into. -/
def outgoing (a : Atlas) (w : World) (id : String) : List SymbolEdge :=
  match splitSymbolId? id with
  | none => []
  | some (file, _) =>
    if Path.isWithin a.root (.ofText file) then
      match a.symbolGraph w (.ofText file) with
      | .ok graph => graph.edges.filter fun e => e.source = id && !e.typeOnly
      | .error _ => []
    else []

/-- Adds a use found at a depth, and its symbol to the next level if it is new. -/
def addCall (depth : Nat) (s : Trace × List String) (e : SymbolEdge) : Trace × List String :=
  let (t, next) := s
  let t := { t with calls := t.calls ++ [⟨e.source, e.target, e.targetFile, depth + 1, e.line⟩] }
  if t.visited.contains e.target then (t, next)
  else ({ t with visited := t.visited ++ [e.target] }, next ++ [e.target])

/-- Goes on from the symbols of a level, for so many more levels. -/
def levels (a : Atlas) (w : World) : Nat → Nat → List String → Trace → Trace
  | _, _, [], t => t
  | 0, _, ids, t => if ids.any (outgoing a w · ≠ []) then { t with truncated := true } else t
  | more + 1, depth, ids, t =>
    let (t, next) := (ids.flatMap (outgoing a w)).foldl (addCall depth) (t, [])
    levels a w more (depth + 1) next t

end Trace

/-- The uses that can be met from a symbol of a file. -/
def Atlas.trace (a : Atlas) (w : World) (p : Path) (name : String) (depth : Nat) :
    Except ToolError Trace × Atlas :=
  match a.symbolIds w p name with
  | (.error e, a) => (.error e, a)
  | (.ok ids, a) => (.ok (Trace.levels a w depth 0 ids ⟨ids, [], ids.eraseDups, false⟩), a)

end DepAtlas
