import DepAtlas.Atlas.Change
import DepAtlas.Tool.Run
import DepAtlas.Worker.Message

/-! # The worker

A worker takes one input at each turn, then tells the atlas the changes that are due, and then does
one step of the pass that is running, if any. So requests are answered while the workspace is still
being indexed. A request to rebuild the index is answered when its pass ends, also when another one
takes its place.
-/

namespace DepAtlas

/-- A pass that is running, and the request that waits for it; a first pass has none. -/
structure ActivePass where
  pass : IndexPass
  request : Option Nat
  deriving DecidableEq, Repr

/-- What a worker holds once it has been given a workspace. -/
structure WorkerContext where
  atlas : Atlas
  debouncer : Watch.Debouncer
  active : Option ActivePass
  /-- Whether it has told that it is ready. -/
  ready : Bool

structure Worker where
  context : Option WorkerContext
  stopped : Bool

namespace Worker

/-- What a worker can be given at a turn. -/
inductive Input where
  | message (m : Inbound)
  | change (path : Path) (c : Watch.Change)
  /-- A line that is no message, with the request that it names. -/
  | rejected (id : Option Nat) (reason : String)

def new : Worker := ⟨none, false⟩

def failure (id : Option Nat) (e : ToolError) : Outbound := .error id e.message (some e.code)

def reply (id : Nat) : Except ToolError Json → Outbound
  | .ok data => .result id data 0
  | .error e => failure (some id) e

/-- Tells that the worker is ready, unless it has been told. -/
def announce (c : WorkerContext) : List Outbound × WorkerContext :=
  if c.ready then ([], c) else ([.ready 0 c.atlas.cache.size], { c with ready := true })

/-- Opens a workspace, and begins a first pass if that is wanted. -/
def openWorkspace (w : World) (config : WorkspaceConfig) : List Outbound × Option WorkerContext :=
  match Atlas.new w config with
  | .error f => ([failure none (.validation f.message)], none)
  | .ok atlas =>
    let idle (atlas : Atlas) : List Outbound × Option WorkerContext :=
      let (out, c) := announce ⟨atlas, .new config.debounce, none, false⟩
      (out, some c)
    if config.warmup then
      match atlas.beginIndex w with
      | (.ok pass, atlas) => ([], some ⟨atlas, .new config.debounce, some ⟨pass, none⟩, false⟩)
      | (.error _, atlas) => idle atlas
    else idle atlas

/-- Ends the pass that is running before its next file; the request that waits for it gets the
summary. -/
def cancelActive (w : World) (c : WorkerContext) : List Outbound × WorkerContext :=
  match c.active with
  | none => ([], c)
  | some a =>
    let c := { c with active := none }
    match c.atlas.indexStep w a.pass.cancel with
    | (.done summary, _, atlas) =>
      (a.request.toList.map fun id => .result id summary.toJson 0, { c with atlas })
    | (.progress _, _, atlas) => ([], { c with atlas })

/-- Begins a pass for a request, in place of the one that is running. -/
def rebuild (w : World) (c : WorkerContext) (id : Nat) : List Outbound × WorkerContext :=
  let (out, c) := cancelActive w c
  match c.atlas.beginIndex w with
  | (.ok pass, atlas) => (out, { c with atlas, active := some ⟨pass, some id⟩ })
  | (.error f, atlas) =>
    let refused := failure (some id) (.execution ("rebuild failed: " ++ f.message))
    let (ready, c) := announce { c with atlas }
    (out ++ [refused] ++ ready, c)

/-- Answers a request, or begins the pass that it asks for. -/
def invoke (w : World) (c : WorkerContext) (id : Nat) (tool : String) (params : Json) :
    List Outbound × WorkerContext :=
  match ToolRequest.parse tool params with
  | .error e => ([failure (some id) e], c)
  | .ok .rebuild => rebuild w c id
  | .ok request =>
    let (outcome, atlas) := request.run c.atlas w
    ([reply id outcome], { c with atlas })

/-- Takes an input. -/
def take (w : World) (now : Nat) (k : Worker) : Input → List Outbound × Worker
  | .message (.init config) =>
    match k.context with
    | some _ => ([failure none (.validation "worker is already initialized")], k)
    | none =>
      let (out, context) := openWorkspace w config
      (out, { k with context })
  | .message (.invoke id tool params) =>
    match k.context with
    | none => ([failure (some id) .notInitialized], k)
    | some c =>
      let (out, c) := invoke w c id tool params
      (out, { k with context := some c })
  | .message .shutdown => ([], ⟨none, true⟩)
  | .change path change =>
    ([], { k with context := k.context.map fun c =>
      { c with debouncer := c.debouncer.schedule (w.tree.settle path) change now } })
  | .rejected id reason => ([failure id (.validation reason)], k)

/-- Tells the atlas the changes that are due. -/
def flush (w : World) (now : Nat) (c : WorkerContext) : List Outbound × WorkerContext :=
  let (due, debouncer) := c.debouncer.take now
  (due.map fun (path, change) => .invalidated (w.tree.key path) change,
    { c with debouncer, atlas := c.atlas.applyAll w due })

/-- Does a step of the pass that is running. -/
def step (w : World) (c : WorkerContext) : List Outbound × WorkerContext :=
  match c.active with
  | none => ([], c)
  | some a =>
    match c.atlas.indexStep w a.pass with
    | (.progress report, pass, atlas) =>
      (if a.request.isSome then []
        else report.toList.map fun s => .progress s.processed s.total s.currentFile,
        { c with atlas, active := some { a with pass } })
    | (.done summary, _, atlas) =>
      let (ready, c) := announce { c with atlas := atlas.recordWarmup summary, active := none }
      (a.request.toList.map (fun id => .result id summary.toJson 0) ++ ready, c)

/-- A turn: an input if there is one, the changes that are due, and a step. -/
def turn (w : World) (now : Nat) (k : Worker) (input : Option Input) : List Outbound × Worker :=
  let (taken, k) := match input with
    | some i => take w now k i
    | none => ([], k)
  match k.context with
  | none => (taken, k)
  | some c =>
    let (flushed, c) := flush w now c
    let (stepped, c) := step w c
    (taken ++ flushed ++ stepped, { k with context := some c })

/-- Takes inputs that are all there from the start, until it is told to stop. -/
def run (w : World) (now : Nat) : List Input → Worker → List Outbound × Worker
  | [], k => ([], k)
  | i :: is, k =>
    if k.stopped then ([], k)
    else
      let (out, k) := turn w now k (some i)
      let (more, k) := run w now is k
      (out ++ more, k)

/-- A number of turns without input. -/
def idle (w : World) (now : Nat) : Nat → Worker → List Outbound × Worker
  | 0, k => ([], k)
  | n + 1, k =>
    let (out, k) := turn w now k none
    let (more, k) := idle w now n k
    (out ++ more, k)

/-- How many steps the pass that is running still needs. -/
def stepsLeft (k : Worker) : Nat :=
  match k.context.bind (·.active) with
  | none => 0
  | some a => a.pass.remaining.length + 1

/-- Takes an input and goes on until no pass is running. -/
def serve (w : World) (now : Nat) (k : Worker) (input : Input) : List Outbound × Worker :=
  let (out, k) := turn w now k (some input)
  let (more, k) := idle w now k.stepsLeft k
  (out ++ more, k)

/-- The input in a line of text. A line without text has none. -/
def inputOfLine (s : Settings) (line : String) : Option Input :=
  if Text.isBlankText line then none
  else
    some <|
      match Inbound.ofText s line with
      | .ok m => .message m
      | .error e =>
        let id := match Json.read line with
          | .ok j => (j.get? "requestId").bind Json.nat?
          | .error _ => none
        .rejected id ("invalid message: " ++ e.message)

end Worker

end DepAtlas
