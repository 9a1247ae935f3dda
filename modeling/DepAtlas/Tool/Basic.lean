import DepAtlas.Outline.Read
import DepAtlas.Text.Order

/-! # Tools

A tool is a question or an order that clients can put by name. What its parameters are is told once,
and both the reading of parameters and the published schema follow it.
-/

namespace DepAtlas

inductive Tool where
  | analyze
  | crawl
  | references
  | expand
  | imports
  | usage
  | resolve
  | status
  | invalidate
  | rebuild
  | symbolGraph
  | unused
  | dependents
  | trace
  | callers
  | breaking
  | impact
  | logic
  deriving DecidableEq, Repr

namespace Tool

/-- The tools in the order in which they are listed. -/
def all : List Tool :=
  [analyze, crawl, references, expand, imports, usage, resolve, status, invalidate, rebuild,
    symbolGraph, unused, dependents, trace, callers, breaking, impact, logic]

def name : Tool → String
  | analyze => "analyze_dependencies"
  | crawl => "crawl_dependency_graph"
  | references => "find_referencing_files"
  | expand => "expand_node"
  | imports => "parse_imports"
  | usage => "verify_dependency_usage"
  | resolve => "resolve_module_path"
  | status => "get_index_status"
  | invalidate => "invalidate_files"
  | rebuild => "rebuild_index"
  | symbolGraph => "get_symbol_graph"
  | unused => "find_unused_symbols"
  | dependents => "get_symbol_dependents"
  | trace => "trace_function_execution"
  | callers => "get_symbol_callers"
  | breaking => "analyze_breaking_changes"
  | impact => "get_impact_analysis"
  | logic => "analyze_file_logic"

def summary : Tool → String
  | analyze => "Direct imports of one file, resolved to workspace paths."
  | crawl => "Breadth-first dependency graph from an entry file, with cycles."
  | references => "Files that import the given file."
  | expand => "Grow a partial graph from one node, skipping known files."
  | imports => "Raw import statements of a file, unresolved."
  | usage => "Whether each resolved import of a file is actually used."
  | resolve => "Resolve one module specifier from an importing file."
  | status => "Index state, progress counters and warmup info."
  | invalidate => "Drop cached analysis for the given files."
  | rebuild => "Re-index the workspace, cancelling a rebuild already running."
  | symbolGraph => "Symbols of a file and the symbol-level edges leaving it."
  | unused => "Symbols of a file that nothing references."
  | dependents => "Direct dependents of a symbol."
  | trace => "Forward call chain of a function."
  | callers => "Callers of a symbol from the symbol reverse index."
  | breaking => "Classify signature changes between two versions of a file."
  | impact => "Direct and transitive blast radius of changing a symbol."
  | logic => "Call hierarchy inside one file."

def ofName? (s : String) : Option Tool := all.find? (·.name = s)

/-! ## Parameters -/

inductive ParamType where
  | text
  | texts
  | count
  | flag
  deriving DecidableEq, Repr

/-- Whether a parameter must be given. -/
inductive Presence where
  | required
  /-- It may be left out or null. -/
  | optional
  /-- It may be left out, and is an empty list then. -/
  | emptyList
  deriving DecidableEq, Repr

structure Parameter where
  key : String
  type : ParamType
  presence : Presence := .required
  /-- What clients are told of it. -/
  note : Option String := none
  deriving DecidableEq, Repr

/-- The parameters of a tool under the title of their record. -/
structure Parameters where
  title : String
  list : List Parameter
  deriving DecidableEq, Repr

def fileOnly : Parameters :=
  ⟨"struct FileParams",
    [{ key := "filePath", type := .text
       note := "Workspace-relative or absolute path inside the workspace." }]⟩

def nothing : Parameters := ⟨"struct EmptyParams", []⟩

def symbolOnly : Parameters :=
  ⟨"struct SymbolParams",
    [{ key := "filePath", type := .text },
      { key := "symbolName", type := .text
        note := "Bare name (`save`) or qualified name (`Store.save`)." }]⟩

def parameters : Tool → Parameters
  | analyze | references | imports | symbolGraph | unused => fileOnly
  | status | rebuild => nothing
  | dependents | callers => symbolOnly
  | crawl =>
    ⟨"struct CrawlParams",
      [{ key := "entryFile", type := .text },
        { key := "maxDepth", type := .count, presence := .optional
          note := "Hops from the entry file (0..=50). Defaults to the workspace maxDepth." }]⟩
  | expand =>
    ⟨"struct ExpandNodeParams",
      [{ key := "filePath", type := .text },
        { key := "knownFiles", type := .texts, presence := .emptyList
          note := "Files the client already holds; they are not reported again." },
        { key := "extraDepth", type := .count, presence := .optional
          note := "Additional hops below the node (0..=50, default 1)." }]⟩
  | usage =>
    ⟨"struct VerifyUsageParams",
      [{ key := "filePath", type := .text },
        { key := "targets", type := .texts, presence := .optional
          note := "Restrict the check to these dependency targets." }]⟩
  | resolve =>
    ⟨"struct ResolveModuleParams",
      [{ key := "fromFile", type := .text, note := "The importing file." },
        { key := "moduleSpecifier", type := .text }]⟩
  | invalidate => ⟨"struct InvalidateFilesParams", [{ key := "filePaths", type := .texts }]⟩
  | trace =>
    ⟨"struct TraceParams",
      [{ key := "filePath", type := .text }, { key := "symbolName", type := .text },
        { key := "maxDepth", type := .count, presence := .optional }]⟩
  | breaking =>
    ⟨"struct BreakingChangesParams",
      [{ key := "filePath", type := .text
         note := "Determines the language; the file itself is not read." },
        { key := "oldContent", type := .text }, { key := "newContent", type := .text },
        { key := "symbolName", type := .text, presence := .optional }]⟩
  | impact =>
    ⟨"struct ImpactParams",
      [{ key := "filePath", type := .text }, { key := "symbolName", type := .text },
        { key := "includeTransitive", type := .flag, presence := .optional
          note := "Default true." },
        { key := "maxDepth", type := .count, presence := .optional }]⟩
  | logic =>
    ⟨"struct FileLogicParams",
      [{ key := "filePath", type := .text },
        { key := "includeExternal", type := .flag, presence := .optional
          note := "Include calls that leave the file. Default false." }]⟩

/-! ## Schemas -/

def ParamType.schema : ParamType → List (String × Json)
  | text => [("type", .str "string")]
  | texts => [("type", .str "array"), ("items", .object [("type", .str "string")])]
  | count => [("type", .str "integer"), ("minimum", .num (.float 0))]
  | flag => [("type", .str "boolean")]

def Parameter.schema (p : Parameter) : Json :=
  .object (p.type.schema ++ (p.note.map fun n => ("description", Json.str n)).toList ++
    if p.presence = .emptyList then [("default", .arr [])] else [])

/-- The schema of a record of parameters. -/
def Parameters.schema (ps : Parameters) : Json :=
  let required := Text.sorted ((ps.list.filter (·.presence = .required)).map (·.key))
  .object ([("type", .str "object"), ("additionalProperties", .bool false)] ++
    (if ps.list.isEmpty then []
      else [("properties", .object (ps.list.map fun p => (p.key, p.schema)))]) ++
    if required.isEmpty then [] else [("required", Json.strings required)])

/-- The published schema of the parameters of a tool. -/
def schema (t : Tool) : Json := t.parameters.schema

/-! ## Reading -/

open Json.Decode

def Parameter.field (p : Parameter) : Field :=
  let of {α : Type} (d : Json.Decode α) : Field :=
    match p.presence with
    | .required => .of p.key d
    | .optional => .of p.key (option d)
    | .emptyList => .of p.key d true
  match p.type with
  | .text => of text
  | .texts => of (list text)
  | .count => of count
  | .flag => of flag

/-- The shape of the parameters of a tool: no others are taken. -/
def shape (t : Tool) : Shape := ⟨t.parameters.title, t.parameters.list.map Parameter.field, true⟩

end Tool

end DepAtlas
