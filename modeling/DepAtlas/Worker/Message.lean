import DepAtlas.Config
import DepAtlas.Json.Record
import DepAtlas.Watch.Change

/-! # Messages of a worker

A worker owns an atlas and is spoken to by messages. Those that it takes and those that it sends are
values here; on a wire each is one line of JSON.
-/

namespace DepAtlas.Worker

open Json.Decode

/-- What a worker takes. -/
inductive Inbound where
  | init (config : WorkspaceConfig)
  | invoke (id : Nat) (tool : String) (params : Json)
  | shutdown
  deriving Repr

/-- What a worker sends. -/
inductive Outbound where
  /-- The worker is ready, after so many milliseconds and with so many files known. -/
  | ready (duration indexed : Nat)
  | result (id : Nat) (data : Json) (duration : Nat)
  | error (id : Option Nat) (message : String) (code : Option ErrorCode)
  | progress (processed total : Nat) (file : Option String)
  | invalidated (path : String) (change : Watch.Change)
  deriving Repr

def requestId : Json.Decode Nat := natural "u64"

def changeOfJson (origin : Origin) : Json.Decode Watch.Change :=
  oneOf origin Watch.Change.all Watch.Change.name

def codeOfJson (origin : Origin) : Json.Decode ErrorCode :=
  oneOf origin ErrorCode.all ErrorCode.name

namespace Inbound

def title : String := "HostMessage"

def tags : List String := ["init", "invoke", "shutdown"]

def toJson : Inbound → Json
  | init config => .object [("type", .str "init"), ("config", config.toJson)]
  | invoke id tool params =>
    .object [("type", .str "invoke"), ("requestId", .nat id), ("tool", .str tool),
      ("params", params)]
  | shutdown => .object [("type", .str "shutdown")]

def initShape (s : Settings) : Shape :=
  ⟨"struct variant HostMessage::Init", [.of "config" (WorkspaceConfig.ofJson s .gathered)], false⟩

def invokeShape : Shape :=
  ⟨"struct variant HostMessage::Invoke",
    [.of "requestId" requestId, .of "tool" text, .of "params" any true], false⟩

/-- The message with a tag and fields. What a configuration leaves out is taken from settings. -/
def ofTagged (s : Settings) (tag : String) (content : Json) : Except Json.DecodeError Inbound :=
  match tag with
  | "init" => do
    let fields ← (initShape s).read .gathered content
    return init (← fields.required "config" (WorkspaceConfig.ofJson s .gathered))
  | "invoke" => do
    let fields ← invokeShape.read .gathered content
    return invoke (← fields.required "requestId" requestId) (← fields.required "tool" text)
      (← fields.orElse "params" .null any).normal
  | _ => .ok shutdown

def ofJson (s : Settings) : Json.Decode Inbound := fun j => do
  let (tag, content) ← tagged title tags j
  ofTagged s tag content

/-- The message that a line of text holds. -/
def ofText (s : Settings) (line : String) : Except Json.TextError Inbound :=
  Json.readTaggedText title tags (ofTagged s) line

end Inbound

namespace Outbound

def title : String := "WorkerMessage"

def tags : List String := ["ready", "result", "error", "warmup-progress", "file-invalidated"]

def tag : Outbound → String
  | ready _ _ => "ready"
  | result _ _ _ => "result"
  | error _ _ _ => "error"
  | progress _ _ _ => "warmup-progress"
  | invalidated _ _ => "file-invalidated"

def fields : Outbound → List (Option (String × Json))
  | ready duration indexed =>
    [some ("warmupDuration", .nat duration), some ("indexedFiles", .nat indexed)]
  | result id data duration =>
    [some ("requestId", .nat id), some ("data", data), some ("executionTimeMs", .nat duration)]
  | error id message code =>
    [Json.field? "requestId" id .nat, some ("error", .str message),
      Json.field? "code" code (.str ·.name)]
  | progress processed total file =>
    [some ("processed", .nat processed), some ("total", .nat total),
      Json.field? "currentFile" file .str]
  | invalidated path change =>
    [some ("filePath", .str path), some ("event", .str change.name)]

def toJson (m : Outbound) : Json := .objectOf (some ("type", .str m.tag) :: m.fields)

def milliseconds : Json.Decode Nat := natural "u64"

def readyShape : Shape :=
  ⟨"struct variant WorkerMessage::Ready",
    [.of "warmupDuration" milliseconds, .of "indexedFiles" count], false⟩

def resultShape : Shape :=
  ⟨"struct variant WorkerMessage::Result",
    [.of "requestId" requestId, .of "data" any, .of "executionTimeMs" milliseconds], false⟩

def errorShape : Shape :=
  ⟨"struct variant WorkerMessage::Error",
    [.of "requestId" (option requestId) true, .of "error" text,
      .of "code" (option (codeOfJson .gathered)) true], false⟩

def progressShape : Shape :=
  ⟨"struct variant WorkerMessage::WarmupProgress",
    [.of "processed" count, .of "total" count, .of "currentFile" (option text) true], false⟩

def invalidatedShape : Shape :=
  ⟨"struct variant WorkerMessage::FileInvalidated",
    [.of "filePath" text, .of "event" (changeOfJson .gathered)], false⟩

/-- The message with a tag and fields. -/
def ofTagged (tag : String) (content : Json) : Except Json.DecodeError Outbound :=
  match tag with
  | "ready" => do
    let fields ← readyShape.read .gathered content
    return ready (← fields.required "warmupDuration" milliseconds)
      (← fields.required "indexedFiles" count)
  | "result" => do
    let fields ← resultShape.read .gathered content
    return result (← fields.required "requestId" requestId) (← fields.required "data" any).normal
      (← fields.required "executionTimeMs" milliseconds)
  | "error" => do
    let fields ← errorShape.read .gathered content
    return error (← fields.optional "requestId" requestId) (← fields.required "error" text)
      (← fields.optional "code" (codeOfJson .gathered))
  | "warmup-progress" => do
    let fields ← progressShape.read .gathered content
    return progress (← fields.required "processed" count) (← fields.required "total" count)
      (← fields.optional "currentFile" text)
  | _ => do
    let fields ← invalidatedShape.read .gathered content
    return invalidated (← fields.required "filePath" text)
      (← fields.required "event" (changeOfJson .gathered))

def ofJson : Json.Decode Outbound := fun j => do
  let (tag, content) ← tagged title tags j
  ofTagged tag content

/-- The message that a line of text holds. -/
def ofText (line : String) : Except Json.TextError Outbound :=
  Json.readTaggedText title tags ofTagged line

end Outbound

end DepAtlas.Worker
