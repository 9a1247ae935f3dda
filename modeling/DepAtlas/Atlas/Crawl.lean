import DepAtlas.Atlas.Basic
import DepAtlas.Graph.Cycles

/-! # Crawls

A crawl follows imports from a file, level by level: first the file itself, then the files it imports,
then theirs. It ends at a given depth, or when a level brings no new file.
-/

namespace DepAtlas

/-- A file that a crawl has reached, and in how many steps. -/
structure CrawlNode where
  path : String
  language : Language
  depth : Nat
  deriving DecidableEq, Repr

def CrawlNode.ofNode (n : FileNode) (depth : Nat) : CrawlNode := ⟨n.path, n.language, depth⟩

def CrawlNode.toJson (n : CrawlNode) : Json :=
  .object [("path", .str n.path), ("language", .str n.language.name), ("depth", .nat n.depth)]

structure Crawl where
  entry : String
  nodes : List CrawlNode
  edges : List Dependency
  unresolved : List Unresolved
  /-- Whether the depth kept the crawl from going on. -/
  truncated : Bool
  deriving DecidableEq, Repr

namespace Crawl

def cycles (c : Crawl) : List (List String) :=
  Cycles.find (c.edges.map fun d => (d.source, d.target))

def toJson (c : Crawl) : Json :=
  .object [("entry", .str c.entry), ("nodes", .arr (c.nodes.map CrawlNode.toJson)),
    ("edges", .arr (c.edges.map Dependency.toJson)),
    ("circularDependencies", .arr (c.cycles.map Json.strings)),
    ("unresolved", .arr (c.unresolved.map Unresolved.toJson)),
    ("maxDepthReached", .bool c.truncated)]

/-- Adds an edge unless there is one between the same files. -/
def addEdge (c : Crawl) (d : Dependency) : Crawl :=
  if c.edges.any fun e => e.source = d.source && e.target = d.target then c
  else { c with edges := c.edges ++ [d] }

/-- Adds an import that leads nowhere unless the file has one with the same specifier. -/
def addUnresolved (c : Crawl) (u : Unresolved) : Crawl :=
  if c.unresolved.any fun v => v.source = u.source && v.specifier = u.specifier then c
  else { c with unresolved := c.unresolved ++ [u] }

def addNode (c : Crawl) (n : CrawlNode) : Crawl := { c with nodes := c.nodes ++ [n] }

/-- Where a crawl stands. -/
structure State where
  crawl : Crawl
  /-- The files that need no visit any more. -/
  visited : List String
  /-- The files of the next level found so far. -/
  next : List FileNode
  atlas : Atlas

/-- Follows a dependency of a file at a depth. -/
def follow (w : World) (depth : Nat) (s : State) (d : Dependency) : State :=
  let s := { s with crawl := s.crawl.addEdge d }
  if s.visited.contains d.target then s
  else
    let s := { s with visited := d.target :: s.visited }
    match s.atlas.analyzeLenient w (.ofText d.target) with
    | (none, atlas) => { s with atlas }
    | (some child, atlas) =>
      { s with
        atlas
        crawl := s.crawl.addNode (.ofNode child (depth + 1))
        next := s.next ++ [child] }

/-- Looks at all imports of a file at a depth. -/
def expand (w : World) (depth : Nat) (s : State) (n : FileNode) : State :=
  let s := { s with crawl := n.unresolved.foldl addUnresolved s.crawl }
  n.dependencies.foldl (follow w depth) s

/-- Goes on from the files of a level, for so many more levels. -/
def levels (w : World) : Nat → Nat → List FileNode → State → State
  | _, _, [], s => s
  | 0, _, nodes, s =>
    if nodes.any (·.dependencies ≠ []) then { s with crawl := { s.crawl with truncated := true } }
    else s
  | more + 1, depth, nodes, s =>
    let s := nodes.foldl (expand w depth) { s with next := [] }
    levels w more (depth + 1) s.next s

end Crawl

namespace Atlas

/-- Crawls from a file to a depth. Files in `known` are not told again and not gone through, but edges
to them are told. -/
def crawlFrom (a : Atlas) (w : World) (p : Path) (known : List String) (depth : Nat) :
    Except ToolError Crawl × Atlas :=
  match a.analyze w p with
  | (.error e, a) => (.error e, a)
  | (.ok node, a) =>
    let nodes := if known.contains node.path then [] else [CrawlNode.ofNode node 0]
    let s := Crawl.levels w depth 0 [node]
      ⟨⟨node.path, nodes, [], [], false⟩, node.path :: known, [], a⟩
    (.ok s.crawl, s.atlas)

def crawl (a : Atlas) (w : World) (p : Path) (depth : Nat) : Except ToolError Crawl × Atlas :=
  a.crawlFrom w p [] depth

end Atlas

end DepAtlas
