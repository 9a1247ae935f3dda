import DepAtlas.Text.Order

/-! # Cycles

A search from each node in turn goes down edges in the order of names. An edge back to a node on the
way down closes a cycle. The same cycle found from another node is told once.
-/

namespace DepAtlas.Cycles

/-- The nodes to which edges lead from a node, in order, each once. -/
def targets (edges : List (String × String)) (node : String) : List String :=
  Text.sortedOnce ((edges.filter (·.1 = node)).map (·.2))

/-- The nodes from which edges lead, in order, each once. -/
def sources (edges : List (String × String)) : List String :=
  Text.sortedOnce (edges.map (·.1))

/-- What a search has seen so far. -/
structure Search where
  visited : List String
  /-- The cycles found, in order. -/
  cycles : List (List String)

/-- The way from `node` down to the end of a path, which is given from its end up. -/
def closing (node : String) (path : List String) : List String :=
  (path.takeWhile (· ≠ node)).reverse.cons node

/-- Searches from a node that was not seen before. The path leads from the node above up; `fuel`
bounds its length. -/
def explore (edges : List (String × String)) : Nat → List String → Search → String → Search
  | 0, _, s, _ => s
  | fuel + 1, path, s, node =>
    (targets edges node).foldl (fun s next =>
      if (node :: path).contains next then
        { s with cycles := s.cycles ++ [closing next (node :: path)] }
      else if s.visited.contains next then s
      else explore edges fuel (node :: path) s next) { s with visited := node :: s.visited }

/-- The least name of a list. -/
def least : List String → Option String
  | [] => none
  | a :: as =>
    match least as with
    | none => some a
    | some b => some (if b < a then b else a)

/-- The rotation of a cycle that starts with its least name. -/
def canonical (cycle : List String) : List String :=
  match least cycle with
  | none => []
  | some m => cycle.dropWhile (· ≠ m) ++ cycle.takeWhile (· ≠ m)

/-- Keeps the first of all cycles that are rotations of each other. -/
def distinct (seen : List (List String)) : List (List String) → List (List String)
  | [] => []
  | c :: cs =>
    if seen.contains (canonical c) then distinct seen cs
    else c :: distinct (canonical c :: seen) cs

/-- The cycles that a search through the whole graph meets. -/
def find (edges : List (String × String)) : List (List String) :=
  let fuel := (Text.sortedOnce (edges.map (·.1) ++ edges.map (·.2))).length
  let search := (sources edges).foldl (fun s root =>
    if s.visited.contains root then s else explore edges fuel [] s root) ⟨[], []⟩
  distinct [] search.cycles

end DepAtlas.Cycles
