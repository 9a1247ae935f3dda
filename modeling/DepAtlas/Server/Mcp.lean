import DepAtlas.Host.Local

/-! # Tools for models

The messages here follow JSON-RPC: a message with an id wants an answer, and one without an id gets
none. A client may choose by two more arguments of a tool how its result is shown; these are taken out
before the tool sees its arguments.
-/

namespace DepAtlas.Mcp

def resultJson (id result : Json) : Json :=
  .object [("jsonrpc", .str "2.0"), ("id", id), ("result", result)]

def errorJson (id : Json) (code : Int) (message : String) : Json :=
  .object [("jsonrpc", .str "2.0"), ("id", id),
    ("error", .object [("code", .num (.int code)), ("message", .str message)])]

/-! ## Results -/

inductive TextMode where
  | none
  | compact
  | pretty
  deriving DecidableEq, Repr

/-- How a result is shown. -/
structure Presentation where
  text : TextMode
  structured : Bool
  deriving DecidableEq, Repr

namespace Presentation

def modeKey : String := "text_mode"

def structuredKey : String := "include_structured"

/-- The presentation that arguments ask for. -/
def ofArguments (arguments : List (String × Json)) : Presentation where
  text := match (arguments.lookup modeKey).bind Json.string? with
    | some "none" => .none
    | some "compact" => .compact
    | _ => .pretty
  structured := ((arguments.lookup structuredKey).bind Json.bool?).getD true

/-- The arguments that are left for the tool. -/
def strip (arguments : List (String × Json)) : List (String × Json) :=
  arguments.filter fun (key, _) => key ≠ modeKey && key ≠ structuredKey

/-- The longest text that is sent, in bytes. -/
def textLimit : Nat := 512000

def limited (s : String) : String :=
  if textLimit < s.utf8ByteSize then
    "Response too large (" ++ toString s.utf8ByteSize ++
      " bytes). Narrow the request, e.g. a lower maxDepth."
  else s

def content (s : String) : Json := .arr [.object [("type", .str "text"), ("text", .str s)]]

def success (p : Presentation) (result : Json) : Json :=
  let shown := match p.text with
    | .none => .arr []
    | .compact => content (limited result.compact)
    | .pretty => content (limited result.pretty)
  let whole := match result with
    | .obj _ => result
    | other => .object [("items", other)]
  .object ([("content", shown), ("isError", .bool false)] ++
    if p.structured then [("structuredContent", whole)] else [])

def failure (p : Presentation) (message : String) : Json :=
  .object [("content", if p.text = .none then .arr [] else content message),
    ("isError", .bool true)]

end Presentation

/-! ## Messages -/

def version : String := "0.4.0"

def defaultProtocol : String := "2024-11-05"

def instructions : String :=
  "File paths may be absolute or relative to the workspace root; paths outside the workspace are " ++
  "rejected. Start with crawl_dependency_graph for structure, get_impact_analysis before changing " ++
  "a symbol, and analyze_breaking_changes to compare two versions of a file. Extra arguments: " ++
  "text_mode (none|compact|pretty), include_structured."

/-- What a client is told at the start. It keeps to the protocol that it asks for. -/
def greeting (message : Json) : Json :=
  let protocol := ((message.get? "params").bind (·.get? "protocolVersion")).getD
    (.str defaultProtocol)
  .object [("protocolVersion", protocol), ("capabilities", .object [("tools", .object [])]),
    ("serverInfo", .object [("name", .str "depspider"), ("version", .str version)]),
    ("instructions", .str instructions)]

def toolList : Json :=
  .object [("tools", .arr (Tool.all.map fun t =>
    .object [("name", .str t.name), ("description", .str t.summary), ("inputSchema", t.schema)]))]

/-- The message of a failed call, with its code in front of it. -/
def failureText : HostError → String
  | .tool e => e.text
  | e => e.code.name ++ ": " ++ e.message

/-- Answers a call of a tool. -/
def callTool (s : Service) (w : World) (id message : Json) : Json × Service :=
  match message.get? "params" with
  | none => (errorJson id (-32602) "missing params", s)
  | some params =>
    let name := ((params.get? "name").bind Json.string?).getD ""
    match Tool.ofName? name with
    | none => (errorJson id (-32601) ("unknown tool: " ++ name), s)
    | some _ =>
      let arguments := match params.get? "arguments" with
        | some (.obj fields) => some fields
        | some .null | none => some []
        | some _ => none
      match arguments with
      | none => (errorJson id (-32602) "arguments must be an object", s)
      | some arguments =>
        let p := Presentation.ofArguments arguments
        match s.invoke w name (.obj (Presentation.strip arguments)) with
        | (.ok result, s) => (resultJson id (p.success result), s)
        | (.error e, s) => (resultJson id (p.failure (failureText e)), s)

/-- Answers a message, if it wants an answer. -/
def answer (s : Service) (w : World) (message : Json) : Option Json × Service :=
  match message.get? "id" with
  | none => (none, s)
  | some id =>
    match (message.get? "method").bind Json.string? with
    | none => (some (errorJson id (-32600) "invalid request"), s)
    | some method =>
      match method with
      | "initialize" => (some (resultJson id (greeting message)), s)
      | "notifications/initialized" => (none, s)
      | "ping" => (some (resultJson id (.object [])), s)
      | "tools/list" => (some (resultJson id toolList), s)
      | "tools/call" =>
        let (reply, s) := callTool s w id message
        (some reply, s)
      | "resources/list" => (some (resultJson id (.object [("resources", .arr [])])), s)
      | "prompts/list" => (some (resultJson id (.object [("prompts", .arr [])])), s)
      | _ => (some (errorJson id (-32601) "method not found"), s)

/-- Answers a line. -/
def answerLine (s : Service) (w : World) (line : String) : Option Json × Service :=
  match Json.read line with
  | .ok message => answer s w message
  | .error e => (some (errorJson .null (-32700) ("parse error: " ++ e.message)), s)

end DepAtlas.Mcp
