import DepAtlas.Atlas.Status
import DepAtlas.Config
import DepAtlas.Confine
import DepAtlas.Index.Callers
import DepAtlas.Index.Importers
import DepAtlas.Index.NodeCache
import DepAtlas.Outline.Parsing
import DepAtlas.Resolve.Resolver

/-! # The atlas of a workspace

The atlas holds what is known of the files of a workspace: the cache of files, who imports whom, and
who uses which symbol. It is the only place where these change, and they change together: a file's
imports are in the index of importers exactly as long as the file is in the cache.
-/

namespace DepAtlas

/-- What lies around an atlas: the files, the service that reads sources, and the settings of the
process. -/
structure World where
  tree : FileTree
  parsing : Parsing
  settings : Settings := {}

structure Atlas where
  config : WorkspaceConfig
  root : Path
  resolver : Resolve.Resolver
  exclusions : Ignore.Exclusions
  cache : NodeCache
  importers : Importers
  callers : Callers
  status : IndexStatus
  warmup : Warmup
  /-- Whether the session of the parsing service is closed. -/
  closed : Bool

namespace Atlas

open Resolve

/-- The atlas of a workspace, with nothing known yet. -/
def new (w : World) (config : WorkspaceConfig) : Except Failure Atlas := do
  let config ← config.validate w.tree
  let root := Path.ofText config.root
  let configured := Resolver.new w.tree root config.aliases
  let resolver :=
    if config.compilerPaths then
      match configured.withCompilerPaths w.tree with
      | .ok (_, resolver) => resolver
      | .error _ => configured
    else configured
  match Ignore.Exclusions.ofPatterns root config.exclude with
  | .error e => throw e.toFailure
  | .ok exclusions =>
    return {
      config, root, resolver, exclusions
      cache := .empty
      importers := .empty
      callers := .empty
      status := {}
      warmup := {}
      closed := false }

/-- The path of a file that a client names. -/
def confine (a : Atlas) (w : World) (raw : String) : Except ToolError Path :=
  w.tree.confine a.root raw

/-- Whether changes of a file concern the atlas. -/
def tracks (a : Atlas) (p : Path) : Bool :=
  Path.isWithin a.root p && (Language.ofPath? p).isSome && !a.exclusions.excludes p.toText false

/-- The mark of a content: one character for each byte. -/
def markOf (content : List UInt8) : String :=
  String.ofList (content.map fun b => Char.ofNat b.toNat)

/-! ## Nodes -/

/-- Where an import leads: to a dependency, nowhere, or to the file itself, which counts as neither. -/
inductive Link where
  | dependency (d : Dependency)
  | unresolved (u : Unresolved)
  | itself

/-- Where an import of the file `key` leads. -/
def link (a : Atlas) (w : World) (key : String) (i : Import) : Link :=
  let without (reason : String) : Link := .unresolved ⟨key, i.specifier, i.kind, i.line, reason⟩
  match a.resolver.resolve w.tree key i.specifier with
  | .error e => without e.message
  | .ok (.unresolved reason) => without reason.message
  | .ok (.resolved path) =>
    if (Language.ofPath? path).isNone then
      without ("resolves to non-source file " ++ path.toText)
    else if path.toText = key then .itself
    else .dependency ⟨key, path.toText, i.kind, i.line, i.specifier⟩

/-- The dependencies among links, each once. -/
def dependenciesOf (links : List Link) : List Dependency :=
  (links.filterMap fun
    | .dependency d => some d
    | _ => none).eraseDups

def unresolvedOf (links : List Link) : List Unresolved :=
  links.filterMap fun
    | .unresolved u => some u
    | _ => none

/-- The node of a file, by its outline. -/
def nodeOf (a : Atlas) (w : World) (key : String) (outline : Outline) : FileNode :=
  let links := outline.imports.map (a.link w key)
  { path := key
    language := outline.language
    dependencies := dependenciesOf links
    unresolved := unresolvedOf links
    symbols := outline.declarations.map (Symbol.ofDeclaration key) }

/-- The node of a file, by its content. -/
def build (a : Atlas) (w : World) (key : String) (content : List UInt8) :
    Except ParseError FileNode :=
  (w.parsing.outlineIn a.closed key (Text.decodeLenient content)).map (a.nodeOf w key)

/-! ## Entering and forgetting files -/

/-- Forgets a file, and tells whether it was known. -/
def forget (a : Atlas) (key : String) : Bool × Atlas :=
  (a.cache.contains key,
    { a with
      cache := a.cache.erase key
      importers := (a.importers.remove key).2
      callers := (a.callers.remove key).2 })

/-- Enters a file in place of what was known of it. -/
def store (a : Atlas) (key mark : String) (node : FileNode) : Atlas :=
  { a with
    importers := node.dependencies.foldl Importers.recordDependency (a.importers.remove key).2
    callers := (a.callers.remove key).2
    cache := a.cache.put key mark node }

/-- What is known of a file; it is read and entered if nothing is known yet. -/
def analyze (a : Atlas) (w : World) (p : Path) : Except ToolError FileNode × Atlas :=
  let key := w.tree.key p
  match a.cache.get? key with
  | some hit => (.ok hit.node, a)
  | none =>
    let file := Path.ofText key
    if !w.tree.isFile file then (.error (.fileNotFound key), a)
    else if !w.parsing.supportsIn a.closed file then
      (.error (ParseError.unsupported key).toToolError, a)
    else
      match w.tree.read file with
      | .error fault =>
        (.error ((Failure.ofFault fault).within ("read " ++ key)).toToolError, a)
      | .ok content =>
        match a.build w key content with
        | .error e => (.error e.toToolError, a)
        | .ok node => (.ok node, a.store key (markOf content) node)

/-- As `analyze`, with a leaf for a file of a known language that cannot be read. -/
def analyzeLenient (a : Atlas) (w : World) (p : Path) : Option FileNode × Atlas :=
  match a.analyze w p with
  | (.ok node, a) => (some node, a)
  | (.error _, a) => ((Language.ofPath? p).map (FileNode.leaf (w.tree.key p)), a)

/-- Analyses files one after the other. -/
def refresh (a : Atlas) (w : World) (files : List Path) : Atlas :=
  files.foldl (fun a p => (a.analyzeLenient w p).2) a

/-- Forgets the file at a path, and tells whether it was known. -/
def invalidate (a : Atlas) (w : World) (p : Path) : Bool × Atlas := a.forget (w.tree.key p)

/-- Forgets files one after the other; tells, each once, those that were known. -/
def forgetAll (a : Atlas) (keys : List String) : List String × Atlas :=
  keys.foldl (fun (gone, a) key =>
    match a.forget key with
    | (true, a) => (if gone.contains key then gone else gone ++ [key], a)
    | (false, a) => (gone, a)) ([], a)

/-! ## Changes of files -/

/-- A file has changed: what was known of it is forgotten. Once the workspace has been indexed, it is
read again. -/
def fileChanged (a : Atlas) (w : World) (p : Path) : Bool × Atlas :=
  let (known, a) := a.invalidate w p
  (known, if a.warmup.completed && a.tracks p then a.refresh w [p] else a)

/-- A file or a directory has gone: what was known of it, of the files below it and of all files that
lead to these is forgotten. Once the workspace has been indexed, the importing files are read again. -/
def fileDeleted (a : Atlas) (w : World) (p : Path) : List String × Atlas :=
  let key := w.tree.key p
  let doomed := a.cache.paths.filter fun cached =>
    cached = key || (Path.ofText cached).isUnder (.ofText key)
  let referrers := (doomed ++ [key]).flatMap a.importers.sourcesOf
  let (gone, a) := a.forgetAll (doomed ++ referrers)
  (gone,
    if a.warmup.completed then
      a.refresh w ((referrers.map Path.ofText).filter w.tree.isFile)
    else a)

/-- The known files with an import that led nowhere and now leads to the file `key`, in order. -/
def waitingFor (a : Atlas) (w : World) (key : String) : List String :=
  Text.sorted <| (a.cache.entries.filter fun (source, cached) =>
    cached.node.unresolved.any fun u =>
      (a.resolver.file? w.tree source u.specifier).any fun p => w.tree.key p = key).map (·.1)

/-- A file has come: it is forgotten, if it was known, and so are the files that waited for it. Once
the workspace has been indexed, all of them are read again. -/
def fileAdded (a : Atlas) (w : World) (p : Path) : List String × Atlas :=
  let key := w.tree.key p
  let (gone, a) := a.forgetAll (key :: a.waitingFor w key)
  (gone,
    if a.warmup.completed then
      (gone ++ [key]).foldl (fun a source =>
        let file := Path.ofText source
        if a.tracks file && w.tree.isFile file then a.refresh w [file] else a) a
    else a)

/-! ## Questions -/

/-- The imports that lead to a file, as far as the cache still bears them out. -/
def referencesTo (a : Atlas) (w : World) (p : Path) : List Importer :=
  let key := w.tree.key p
  (a.importers.lookup key).filter fun entry =>
    (a.cache.get? entry.source).any fun cached =>
      cached.node.dependencies.any fun d => d.target = key && d.line = entry.line

/-- The outline of a file as it is now. -/
def outline (a : Atlas) (w : World) (p : Path) : Except ToolError Outline := do
  let key := w.tree.key p
  let file := Path.ofText key
  if !w.tree.isFile file then throw (.fileNotFound key)
  match w.tree.readText file with
  | .error fault => throw ((Failure.ofFault fault).within ("read " ++ key)).toToolError
  | .ok source =>
    match w.parsing.outlineIn a.closed key source with
    | .ok o => return o
    | .error e => throw e.toToolError

/-- Ends the session: nothing is known any more, and no source is read. -/
def close (a : Atlas) : Atlas :=
  { a with closed := true, cache := .empty, importers := .empty, callers := .empty }

end Atlas

end DepAtlas
