import DepAtlas.CommandLine.Arguments
import DepAtlas.Server.Mcp
import DepAtlas.Server.Rpc

/-! # Running commands

A command is run on a tree of files and an environment. It ends with an exit code, or it starts a server
that takes lines until there are no more.
-/

namespace DepAtlas.CommandLine

/-- How a run ends, and what it has written. -/
structure Exit where
  code : Nat
  output : String
  errors : String
  deriving DecidableEq, Repr

/-- A server that takes lines. -/
inductive Server where
  | rpc (s : Service)
  | mcp (s : Service)
  | worker (k : Worker)

/-- What a command does at first. -/
inductive Launch where
  | finished (e : Exit)
  | serving (s : Server)

def versionText : String := "depspider " ++ Mcp.version ++ "\n"

def helpText : String :=
  "Dependency graphs, call graphs and change impact for TS/JS, Python and Rust\n\n" ++
  "Usage: depspider <COMMAND>\n\n" ++
  "Commands: serve, mcp-serve, request, crawl, index, help\n"

/-- The report of a failure: what failed, and what caused it. -/
def report (f : Failure) : String :=
  let indented (s : String) : String := Text.replaceText "\n" "\n    " s
  let causes := (f.contexts ++ [f.cause.message]).drop 1
  let numbered (n : Nat) (s : String) : String :=
    "    " ++ toString n ++ ": " ++ Text.replaceText "\n" "\n       " s
  "Error: " ++ f.summary ++
    (match causes with
      | [] => ""
      | [cause] => "\n\nCaused by:\n    " ++ indented cause
      | _ => "\n\nCaused by:\n" ++
        "\n".intercalate (causes.zipIdx.map fun (s, n) => numbered n s)) ++ "\n"

def failed (f : Failure) : Launch := .finished ⟨1, "", report f⟩

def printed (j : Json) : Launch := .finished ⟨0, j.pretty ++ "\n", ""⟩

def ofExcept (r : Except Failure Launch) : Launch :=
  match r with
  | .ok l => l
  | .error f => failed f

/-- Indexes a workspace once. -/
def index (w : World) (a : WorkspaceArguments) : Except Failure Launch := do
  let atlas ← Atlas.new w (← a.config w.settings)
  match (atlas.buildIndex w).1 with
  | .ok (summary, _) => return printed summary.toJson
  | .error f => throw f

/-- Crawls from a file once. -/
def crawl (w : World) (a : WorkspaceArguments) (entry : String) (depth : Option Nat) :
    Except Failure Launch := do
  let config ← a.config w.settings
  let atlas ← Atlas.new w config
  let refused (e : ToolError) : Failure := ⟨[], .tool e⟩
  let p ← (atlas.confine w entry).mapError refused
  let c ← (atlas.crawl w p (depth.getD config.maxDepth)).1.mapError refused
  return printed c.toJson

/-- Answers one request. -/
def request (w : World) (a : WorkspaceArguments) (method params : String)
    (paramsFile : Option String) (id : String) : Except Failure Launch := do
  let config ← a.config w.settings
  let params ← match paramsFile with
    | none => pure params
    | some file => (w.tree.readText (.ofText file)).mapError fun fault =>
      (Failure.ofFault fault).within ("read " ++ file)
  let answer ← Rpc.call w { config with watch := false } (.ofSettings w.settings) method params id
  return .finished ⟨0, answer.compact ++ "\n", ""⟩

/-- Starts a worker for a server. -/
def service (w : World) (a : WorkspaceArguments) (h : HostArguments) : Except Failure Service := do
  let config ← a.config w.settings
  let host := Host.ofSettings w.settings
  let host := { host with requestTimeout := h.requestTimeout.getD host.requestTimeout }
  let (ready, s) := Service.start w host config
  let _ ← ready.mapError fun e => e.toFailure.within "start worker"
  return s

/-- Begins a command. -/
def launch (w : World) : Command → Launch
  | .serve a h => ofExcept ((service w a h).map fun s => .serving (.rpc s))
  | .mcpServe a h => ofExcept ((service w a h).map fun s => .serving (.mcp s))
  | .request a method params paramsFile id => ofExcept (request w a method params paramsFile id)
  | .crawl a entry depth => ofExcept (crawl w a entry depth)
  | .index a => ofExcept (index w a)
  | .worker => .serving (.worker .new)

/-- What comes of arguments that are not run. -/
def usage : UsageError → Exit
  | .displayHelp => ⟨0, helpText, ""⟩
  | .displayVersion => ⟨0, versionText, ""⟩
  | e => ⟨2, "", "error: " ++ e.message ++ "\n"⟩

/-- Whether a command keeps its worker in a process of its own. -/
def startsProcess (s : Settings) : Command → Bool
  | .serve a h | .mcpServe a h =>
    h.process && (match a.config s with
      | .ok _ => true
      | .error _ => false)
  | _ => false

namespace Server

/-- Takes a line, and tells the lines to be written. Blank lines are passed over. -/
def line (w : World) (s : Server) (line : String) : List String × Server :=
  if Text.isBlankText line then ([], s)
  else
    match s with
    | rpc s =>
      let (reply, s) := Rpc.answerLine s w line
      ([reply.compact], .rpc s)
    | mcp s =>
      let (reply, s) := Mcp.answerLine s w line
      (reply.toList.map Json.compact, .mcp s)
    | worker k =>
      match Worker.inputOfLine w.settings line with
      | none => ([], s)
      | some input =>
        if k.stopped then ([], s)
        else
          let (out, k) := k.serve w 0 input
          (out.map fun m => m.toJson.compact, .worker k)

/-- Takes lines one after the other. -/
def lines (w : World) : List String → Server → List String × Server
  | [], s => ([], s)
  | l :: ls, s =>
    let (out, s) := s.line w l
    let (more, s) := lines w ls s
    (out ++ more, s)

end Server

/-- Runs a command line to its end, on all lines that it will be given. -/
def run (tree : FileTree) (parsing : Parsing) (environment : String → Option String)
    (args input : List String) : Exit :=
  match Command.ofArguments args with
  | .error e => usage e
  | .ok command =>
    let (settings, warnings) := Settings.ofEnvironment environment
    let w : World := ⟨tree, parsing, settings⟩
    let told := warnings ++ if startsProcess settings command then warnings else []
    let warned := String.join (told.map (· ++ "\n"))
    match launch w command with
    | .finished e => { e with errors := warned ++ e.errors }
    | .serving s =>
      let (out, _) := s.lines w input
      ⟨0, String.join (out.map (· ++ "\n")), warned⟩

end DepAtlas.CommandLine
