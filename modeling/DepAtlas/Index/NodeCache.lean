import DepAtlas.Graph.Dependency
import DepAtlas.Text.Order

/-! # The cache of files

For each file by its path, what is known of it and the mark of the content from which that was
found. An entry stays until it is taken out.
-/

namespace DepAtlas

structure CachedFile where
  /-- The mark of the content: equal for equal contents only. -/
  mark : String
  node : FileNode
  deriving DecidableEq, Repr

/-- Cached files by their paths, with one entry for each. -/
structure NodeCache where
  entries : List (String × CachedFile)
  deriving Repr

namespace NodeCache

def empty : NodeCache := ⟨[]⟩

def get? (c : NodeCache) (path : String) : Option CachedFile :=
  (c.entries.find? (·.1 = path)).map (·.2)

def contains (c : NodeCache) (path : String) : Bool := (c.get? path).isSome

def erase (c : NodeCache) (path : String) : NodeCache := ⟨c.entries.filter (·.1 ≠ path)⟩

def put (c : NodeCache) (path mark : String) (node : FileNode) : NodeCache :=
  ⟨(c.erase path).entries ++ [(path, ⟨mark, node⟩)]⟩

def size (c : NodeCache) : Nat := c.entries.length

/-- The paths of the cached files, in order. -/
def paths (c : NodeCache) : List String := Text.sorted (c.entries.map (·.1))

end NodeCache

end DepAtlas
