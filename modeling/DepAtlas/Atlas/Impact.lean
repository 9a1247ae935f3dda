import DepAtlas.Atlas.Dependents

/-! # Impact of a change

What a change of a symbol may reach: its direct dependents, and level by level the dependents of
those. Who uses a symbol as a type only is reached, but nothing is reached through it.
-/

namespace DepAtlas

inductive ImpactLevel where
  | low
  | medium
  | high
  deriving DecidableEq, Repr

namespace ImpactLevel

def name : ImpactLevel → String
  | low => "low"
  | medium => "medium"
  | high => "high"

/-- The level by the number of direct dependents at run time and the number of all dependents. -/
def ofCounts (runtime total : Nat) : ImpactLevel :=
  if 10 ≤ runtime || 20 ≤ total then high
  else if 3 ≤ runtime || 5 ≤ total then medium
  else low

end ImpactLevel

/-- A symbol that a change reaches. -/
structure ImpactEntry where
  symbol : String
  file : String
  distance : Nat
  typeOnly : Bool
  deriving DecidableEq, Repr

namespace ImpactEntry

def ofCaller (c : Caller) (distance : Nat) : ImpactEntry := ⟨c.symbol, c.file, distance, c.typeOnly⟩

def relationship (e : ImpactEntry) : String :=
  if e.distance = 1 then "DIRECT" else "INDIRECT_" ++ toString e.distance

def toJson (e : ImpactEntry) : Json :=
  .object [("symbolId", .str e.symbol), ("filePath", .str e.file), ("distance", .nat e.distance),
    ("relationship", .str e.relationship), ("isTypeOnly", .bool e.typeOnly)]

/-- The name of the symbol without its file. -/
def symbolName (e : ImpactEntry) : String := ((splitSymbolId? e.symbol).map (·.2)).getD e.symbol

end ImpactEntry

/-- A file with the symbols in it that a change reaches. -/
structure FileImpact where
  path : String
  symbols : List String
  deriving DecidableEq, Repr

namespace FileImpact

def toJson (f : FileImpact) : Json :=
  .object [("path", .str f.path), ("symbolCount", .nat f.symbols.length),
    ("symbols", Json.strings f.symbols)]

/-- Files with more symbols come first, and then the order is that of their paths. -/
def le (f g : FileImpact) : Bool :=
  if f.symbols.length = g.symbols.length then Text.le f.path g.path
  else g.symbols.length < f.symbols.length

/-- The files of symbols that a change reaches. -/
def ofEntries (entries : List ImpactEntry) : List FileImpact :=
  ((Text.sortedOnce (entries.map (·.file))).map fun file =>
    ⟨file, ((entries.filter (·.file = file)).map ImpactEntry.symbolName).eraseDups⟩).mergeSort le

end FileImpact

structure Impact where
  file : String
  name : String
  ids : List String
  direct : List ImpactEntry
  transitive : List ImpactEntry
  /-- Whether the depth kept the search from going on. -/
  truncated : Bool
  deriving DecidableEq, Repr

namespace Impact

def runtimeDependents (i : Impact) : Nat := i.direct.countP (!·.typeOnly)

def typeOnlyDependents (i : Impact) : Nat := i.direct.countP (·.typeOnly)

def level (i : Impact) : ImpactLevel :=
  .ofCounts i.runtimeDependents (i.direct.length + i.transitive.length)

def toJson (i : Impact) : Json :=
  .object [("filePath", .str i.file), ("symbolName", .str i.name), ("symbolIds", Json.strings i.ids),
    ("impactLevel", .str i.level.name), ("directImpactCount", .nat i.direct.length),
    ("transitiveImpactCount", .nat i.transitive.length),
    ("runtimeDependents", .nat i.runtimeDependents),
    ("typeOnlyDependents", .nat i.typeOnlyDependents),
    ("direct", .arr (i.direct.map ImpactEntry.toJson)),
    ("transitive", .arr (i.transitive.map ImpactEntry.toJson)),
    ("affectedFiles", .arr ((FileImpact.ofEntries (i.direct ++ i.transitive)).map FileImpact.toJson)),
    ("maxDepthReached", .bool i.truncated)]

/-- Where a search for dependents stands. -/
structure State where
  visited : List String
  /-- The symbols reached after the first level, in order. -/
  found : List ImpactEntry
  truncated : Bool
  /-- The symbols of the next level found so far. -/
  next : List String
  atlas : Atlas

/-- Adds a dependent at a distance, unless it was reached before. -/
def reach (distance : Nat) (s : State) (c : Caller) : State :=
  if s.visited.contains c.symbol then s
  else
    { s with
      visited := c.symbol :: s.visited
      found := s.found ++ [.ofCaller c distance]
      next := if c.typeOnly then s.next else s.next ++ [c.symbol] }

/-- Adds the dependents of a symbol at a distance. -/
def expand (w : World) (distance : Nat) (s : State) (id : String) : State :=
  let (callers, atlas) := s.atlas.dependentsOfId w id
  callers.foldl (reach (distance + 1)) { s with atlas }

/-- Sees whether there is more to reach from a symbol. -/
def peek (w : World) (s : State) (id : String) : State :=
  let (callers, atlas) := s.atlas.dependentsOfId w id
  { s with
    atlas
    truncated := s.truncated || callers.any fun c => !s.visited.contains c.symbol }

/-- Goes on from the symbols at a distance, for so many more levels. -/
def levels (w : World) : Nat → Nat → List String → State → State
  | _, _, [], s => s
  | 0, _, ids, s => ids.foldl (peek w) s
  | more + 1, distance, ids, s =>
    let s := ids.foldl (expand w distance) { s with next := [] }
    levels w more (distance + 1) s.next s

end Impact

/-- What a change of a symbol of a file may reach, within a distance. -/
def Atlas.impact (a : Atlas) (w : World) (p : Path) (name : String) (transitive : Bool)
    (depth : Nat) : Except ToolError Impact × Atlas :=
  match a.dependents w p name with
  | (.error e, a) => (.error e, a)
  | (.ok d, a) =>
    let start := d.callers.foldl (Impact.reach 1) ⟨d.ids, [], false, [], a⟩
    let s :=
      if transitive then
        Impact.levels w (depth - 1) 1 start.next { start with found := [], next := [] }
      else { start with found := [] }
    (.ok ⟨d.file, name, d.ids, start.found, s.found, s.truncated⟩, s.atlas)

end DepAtlas
