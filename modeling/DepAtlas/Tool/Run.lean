import DepAtlas.Atlas.Crawl
import DepAtlas.Atlas.Impact
import DepAtlas.Atlas.Indexing
import DepAtlas.Atlas.Logic
import DepAtlas.Atlas.Trace
import DepAtlas.Atlas.Usage
import DepAtlas.Surface
import DepAtlas.Tool.Request

/-! # Running requests

A request is answered from an atlas, which may learn from it. Every path that a request names is
confined to the workspace before anything else is done.
-/

namespace DepAtlas

namespace Atlas

/-- The answer to a question about the state of the index. -/
def statusJson (a : Atlas) : Json :=
  .object [("status", a.status.toJson), ("warmup", a.warmup.toJson),
    ("cachedFiles", .nat a.cache.size), ("reverseIndexTargets", .nat a.importers.targetCount),
    ("symbolIndexedFiles", .nat a.callers.enteredCount)]

/-- Forgets files one after the other; tells the ones that were known and the ones that were not. -/
def invalidateAll (a : Atlas) (w : World) (files : List Path) :
    (List String × List String) × Atlas :=
  files.foldl (fun ((known, unknown), a) p =>
    let key := w.tree.key p
    match a.invalidate w p with
    | (true, a) => ((known ++ [key], unknown), a)
    | (false, a) => ((known, unknown ++ [key]), a)) (([], []), a)

/-- The answer to a question about the module that a file imports. -/
def resolutionJson (a : Atlas) (w : World) (importer : Path) (specifier : String) :
    Except ToolError Json :=
  let answer (path reason : Option String) : Json :=
    .object [("fromFile", .str (w.tree.key importer)), ("moduleSpecifier", .str specifier),
      ("resolved", .bool path.isSome), ("resolvedPath", Json.ofOption .str path),
      ("failureReason", Json.ofOption .str reason)]
  match a.resolver.resolve w.tree importer.toText specifier with
  | .error e => .error e.toToolError
  | .ok (.resolved path) => .ok (answer (some (w.tree.key path)) none)
  | .ok (.unresolved reason) => .ok (answer none (some reason.message))

end Atlas

namespace ToolRequest

/-- The paths of files that a client names; the first that is refused is told. -/
def confineAll (a : Atlas) (w : World) (raws : List String) : Except ToolError (List Path) :=
  raws.mapM (a.confine w)

/-- Goes on with a value, or ends with the error in place of it. -/
def whenOk {α β : Type} (a : Atlas) (e : Except ToolError α)
    (f : α → Except ToolError β × Atlas) : Except ToolError β × Atlas :=
  match e with
  | .error e => (.error e, a)
  | .ok x => f x

/-- An answer as JSON. -/
def written {α : Type} (write : α → Json) (r : Except ToolError α × Atlas) :
    Except ToolError Json × Atlas :=
  (r.1.map write, r.2)

/-- Answers a request. -/
def run (a : Atlas) (w : World) : ToolRequest → Except ToolError Json × Atlas
  | analyze file => whenOk a (a.confine w file) fun p => written FileNode.toJson (a.analyze w p)
  | crawl entry depth => whenOk a (a.confine w entry) fun p =>
    written Crawl.toJson (a.crawl w p (depth.getD a.config.maxDepth))
  | references file => whenOk a (a.confine w file) fun p =>
    let found := a.referencesTo w p
    (.ok (.object [("filePath", .str (w.tree.key p)), ("count", .nat found.length),
      ("referencingFiles", .arr (found.map Importer.toJson))]), a)
  | expand file known depth => whenOk a (a.confine w file) fun p =>
    whenOk a (confineAll a w known) fun known =>
      written Crawl.toJson (a.crawlFrom w p (known.map w.tree.key) (depth.getD 1))
  | imports file => whenOk a (a.confine w file) fun p =>
    (((a.outline w p).map fun o =>
      .object [("filePath", .str (w.tree.key p)), ("imports", .arr (o.imports.map Import.toJson))]),
      a)
  | usage file targets => whenOk a (a.confine w file) fun p =>
    whenOk a (targets.mapM (confineAll a w)) fun targets =>
      ((a.usage w p targets).map UsageReport.toJson, a)
  | resolve importer specifier => whenOk a (a.confine w importer) fun p =>
    (a.resolutionJson w p specifier, a)
  | status => (.ok a.statusJson, a)
  | invalidate files => whenOk a (confineAll a w files) fun paths =>
    let ((known, unknown), a) := a.invalidateAll w paths
    (.ok (.object [("invalidated", Json.strings known), ("notCached", Json.strings unknown)]), a)
  | rebuild =>
    match a.buildIndex w with
    | (.error f, a) => (.error f.toToolError, a)
    | (.ok (summary, _), a) => (.ok summary.toJson, a.recordWarmup summary)
  | symbolGraph file => whenOk a (a.confine w file) fun p =>
    ((a.symbolGraph w p).map SymbolGraph.toJson, a)
  | unused file => whenOk a (a.confine w file) fun p =>
    written UnusedSymbols.toJson (a.unusedSymbols w p)
  | dependents file symbol => whenOk a (a.confine w file) fun p =>
    written Dependents.toJson (a.dependents w p symbol)
  | trace file symbol depth => whenOk a (a.confine w file) fun p =>
    written Trace.toJson (a.trace w p symbol (depth.getD a.config.maxDepth))
  | callers file symbol => whenOk a (a.confine w file) fun p =>
    written CallersAnswer.toJson (a.callersOf w p symbol)
  | breaking file old new symbol => whenOk a (a.confine w file) fun p =>
    (match Surface.compare w.parsing a.closed p.toText old new symbol with
      | .ok report => .ok report.toJson
      | .error e => .error e.toToolError, a)
  | impact file symbol transitive depth => whenOk a (a.confine w file) fun p =>
    written Impact.toJson
      (a.impact w p symbol (transitive.getD true) (depth.getD a.config.maxDepth))
  | logic file includeExternal => whenOk a (a.confine w file) fun p =>
    ((a.fileLogic w p (includeExternal.getD false)).map FileLogic.toJson, a)

end ToolRequest

end DepAtlas
