import DepAtlas.Text.Duration
import DepAtlas.Worker.Message

/-! # Requests in flight

A host puts requests to a worker and hands each reply to the request that it answers, by its id. A
request waits until its reply comes, its time is over, it could not be sent, or the worker is gone;
whichever is first settles it, and what comes later is dropped.
-/

namespace DepAtlas

open Worker (Inbound Outbound)

/-- Why a host cannot answer. Times are in milliseconds. -/
inductive HostError where
  | notStarted
  | alreadyStarted
  | warmupTimeout (limit : Nat)
  | workerTerminated (detail : String)
  | requestTimeout (id : Nat) (tool : String) (limit : Nat)
  | tool (e : ToolError)
  | transport (detail : String)
  deriving DecidableEq, Repr

namespace HostError

def message : HostError → String
  | notStarted => "worker is not running"
  | alreadyStarted => "worker already started"
  | warmupTimeout limit => "worker warmup timed out after " ++ Text.duration limit
  | workerTerminated detail => "worker terminated: " ++ detail
  | requestTimeout id name limit =>
    "request " ++ toString id ++ " (" ++ name ++ ") timed out after " ++ Text.duration limit
  | tool e => e.text
  | transport detail => "transport error: " ++ detail

/-- The code that clients are told. -/
def code : HostError → ErrorCode
  | notStarted => .notInitialized
  | tool e => e.code
  | _ => .execution

def toFailure (e : HostError) : Failure := .plain e.message

end HostError

/-- What a worker tells when it is ready. -/
structure ReadyInfo where
  duration : Nat
  indexed : Nat
  deriving DecidableEq, Repr

/-- What becomes of a request. -/
abbrev Outcome := Except HostError Json

/-- What a host learns besides replies. -/
inductive HostNotice where
  | progress (processed total : Nat) (file : Option String)
  | invalidated (path : String) (change : Watch.Change)
  deriving DecidableEq, Repr

/-- The requests that wait for a worker. -/
structure Exchange where
  /-- The ids of the requests that wait. -/
  pending : List Nat
  /-- Whether the worker is still there. -/
  alive : Bool
  /-- Whether the worker has not yet told if it is ready. -/
  awaitsReady : Bool
  deriving DecidableEq, Repr

namespace Exchange

/-- What happens to an exchange. -/
inductive Event where
  /-- A request is put under a new id. -/
  | put (id : Nat)
  /-- A request could not be sent. -/
  | sendFailed (id : Nat) (e : HostError)
  /-- The time of a request is over. -/
  | timedOut (id : Nat) (tool : String) (limit : Nat)
  | received (m : Outbound)
  /-- The worker is gone. -/
  | closed

/-- What comes of an event. -/
structure Effect where
  /-- The requests that are settled, with their outcomes. -/
  settled : List (Nat × Outcome) := []
  ready : Option (Except HostError ReadyInfo) := none
  notices : List HostNotice := []

def start : Exchange := ⟨[], true, true⟩

/-- Settles a request, if it is waiting. -/
def settle (e : Exchange) (id : Nat) (o : Outcome) : Effect × Exchange :=
  if e.pending.contains id then
    ({ settled := [(id, o)] }, { e with pending := e.pending.filter (· ≠ id) })
  else ({}, e)

/-- Notes whether the worker is ready; only the first word on it counts. -/
def settleReady (e : Exchange) (r : Except HostError ReadyInfo) : Effect × Exchange :=
  if e.awaitsReady then ({ ready := some r }, { e with awaitsReady := false }) else ({}, e)

/-- An error that a worker sends; without a code it counts as a failure to execute. -/
def errorOf (message : String) (code : Option ErrorCode) : HostError :=
  .tool ⟨code.getD .execution, message⟩

/-- Takes a message of the worker. -/
def receive (e : Exchange) : Outbound → Effect × Exchange
  | .ready duration indexed => e.settleReady (.ok ⟨duration, indexed⟩)
  | .result id data _ => e.settle id (.ok data)
  | .error (some id) message code => e.settle id (.error (errorOf message code))
  | .error none message code => e.settleReady (.error (errorOf message code))
  | .progress processed total file => ({ notices := [.progress processed total file] }, e)
  | .invalidated path change => ({ notices := [.invalidated path change] }, e)

/-- The worker is gone: all requests that wait are settled. -/
def close (e : Exchange) : Effect × Exchange :=
  let gone : Outcome := .error (.workerTerminated "worker terminated")
  ({ settled := e.pending.map (·, gone)
     ready :=
      if e.awaitsReady then some (.error (.workerTerminated "worker exited before ready"))
      else none },
    ⟨[], false, false⟩)

def step (e : Exchange) : Event → Effect × Exchange
  | .put id => ({}, { e with pending := e.pending ++ [id] })
  | .sendFailed id error => e.settle id (.error error)
  | .timedOut id tool limit => e.settle id (.error (.requestTimeout id tool limit))
  | .received m => e.receive m
  | .closed => e.close

end Exchange

end DepAtlas
