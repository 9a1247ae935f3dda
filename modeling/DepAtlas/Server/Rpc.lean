import DepAtlas.Host.Local

/-! # Requests in lines

Each line holds a request with an id of the client's choice, and each answer is one line under the
same id. A few methods are about the tools themselves and need no worker.
-/

namespace DepAtlas.Rpc

open Json (TextError Input)

structure Request where
  id : Json
  method : String
  params : Json
  deriving Repr

namespace Request

/-- What has been read of a request. -/
structure Draft where
  id : Option Json := none
  method : Option String := none
  params : Option Json := none

def title : String := "struct RpcRequest"

/-- Reads a field of a request, from where its key ends. Fields that are not known are passed over. -/
def field (d : Draft) (key : String) (i : Input) : Except TextError (Draft × Input) := do
  let once (given : Bool) : Except TextError Unit :=
    if given then throw (.misfit (.repeatedField key) (some i.afterObject)) else pure ()
  match key with
  | "id" =>
    once d.id.isSome
    let (v, i) ← (← Input.lift i.colon).value
    return ({ d with id := some v.normal }, i)
  | "method" =>
    once d.method.isSome
    let (s, i) ← (← Input.lift i.colon).text "a string"
    return ({ d with method := some s }, i)
  | "params" =>
    once d.params.isSome
    let (v, i) ← (← Input.lift i.colon).value
    return ({ d with params := some v.normal }, i)
  | _ =>
    let (_, i) ← (← Input.lift i.colon).value
    return (d, i)

/-- Reads a request that is an object. -/
def ofObject (i : Input) : Except TextError (Request × Input) := do
  let (d, i) ← i.next.fields field (i.rest.length + 1) true {}
  match d.method with
  | none => throw (.misfit (.missingField "method") (some i.next.position))
  | some method => return (⟨d.id.getD .null, method, d.params.getD .null⟩, i.next)

/-- Reads a request that is a list of its fields in order. -/
def ofList (i : Input) : Except TextError (Request × Input) := do
  let tooShort (n : Nat) (i : Input) : TextError :=
    .misfit (.wrongLength n (title ++ " with 3 elements")) (some i.afterList)
  let (more, i) ← Input.lift (i.next.nextElement true)
  if !more then throw (tooShort 1 i)
  let (id, i) ← i.value
  let (more, i) ← Input.lift (i.nextElement false)
  if !more then throw (tooShort 1 i)
  let (method, i) ← i.text "a string"
  let (more, i) ← Input.lift (i.nextElement false)
  let (params, i) ← if more then i.value else pure (.null, i)
  let i ← Input.lift i.closeList
  return (⟨id.normal, method, params.normal⟩, i)

/-- The request that a line of text holds. -/
def ofText (line : String) : Except TextError Request := do
  let i := (Input.ofText line).skipBlanks
  let (r, i) ← match i.rest with
    | '\x7b' :: _ => ofObject i
    | '[' :: _ => ofList i
    | _ => .error (i.misfit title)
  Input.lift i.finish
  return r

end Request

/-- What is told of a tool by the methods about tools. -/
def brief (t : Tool) : Json := .object [("name", .str t.name), ("summary", .str t.summary)]

/-- The answer to a method about tools; none for any other method. -/
def about? (method : String) (params : Json) : Option Json :=
  match method with
  | "help" | "list_tools" => some (.object [("tools", .arr (Tool.all.map brief))])
  | "describe_tool" => do
    let t ← Tool.ofName? (← (← params.get? "name").string?)
    return .object [("name", .str t.name), ("summary", .str t.summary), ("inputSchema", t.schema)]
  | _ => none

def resultJson (id result : Json) : Json := .object [("id", id), ("result", result)]

def errorJson (id : Json) (code : ErrorCode) (message : String) : Json :=
  .object [("id", id),
    ("error", .object [("code", .str code.name), ("message", .str message)])]

/-- The error of a tool is told by its message alone, since its code is told beside it. -/
def failureJson (id : Json) : HostError → Json
  | .tool e => errorJson id e.code e.message
  | e => errorJson id e.code e.message

/-- Answers a request. -/
def answer (s : Service) (w : World) (r : Request) : Json × Service :=
  match about? r.method r.params with
  | some result => (resultJson r.id result, s)
  | none =>
    match s.invoke w r.method r.params with
    | (.ok result, s) => (resultJson r.id result, s)
    | (.error e, s) => (failureJson r.id e, s)

/-- Answers a line. -/
def answerLine (s : Service) (w : World) (line : String) : Json × Service :=
  match Request.ofText line with
  | .ok r => answer s w r
  | .error e => (errorJson .null .validation ("invalid request: " ++ e.message), s)

/-- An id as it is written on a command line: JSON if it is, and a text otherwise. -/
def idOfText (s : String) : Json :=
  match Json.read s with
  | .ok j => j
  | .error _ => .str s

/-- Answers one request by a worker that is started for it. -/
def call (w : World) (config : WorkspaceConfig) (h : Host) (method params id : String) :
    Except Failure Json := do
  let params ← (Json.read params).mapError fun e =>
    (Failure.plain e.message).within "parse params JSON"
  let (ready, s) := Service.start w h config
  let _ ← ready.mapError fun e => e.toFailure.within "start worker"
  return (answer s w ⟨idOfText id, method, params⟩).1

end DepAtlas.Rpc
