import DepAtlas.Host.Basic

/-! # Hosts

A host has at most one worker. It reaches the worker over a link of a transport: a message is sent, and
what comes back until the worker is quiet is taken at once. A worker that is gone is noticed the next
time that the host is used, and is not started again by itself.
-/

namespace DepAtlas

open Worker (Inbound Outbound)

/-- What can come back over a link. -/
inductive Signal where
  | message (m : Outbound)
  /-- The link is closed from the other end. -/
  | closed

/-- What comes of a message: what comes back for it, and why it could not be sent after all. -/
structure Sent where
  signals : List Signal
  failure : Option HostError := none

/-- A way to reach workers over numbered links. -/
structure Transport (σ : Type) where
  send : σ → Nat → Inbound → Sent × σ
  terminate : σ → Nat → σ

/-- A worker that has been started. -/
structure RunningWorker where
  link : Nat
  exchange : Exchange
  deriving DecidableEq, Repr

structure Host where
  warmupTimeout : Nat
  requestTimeout : Nat
  nextId : Nat := 1
  running : Option RunningWorker := none
  deriving DecidableEq, Repr

namespace Host

variable {σ : Type}

def ofSettings (s : Settings) : Host where
  warmupTimeout := s.warmupTimeout
  requestTimeout := s.requestTimeout

/-- What an operation of a host comes to. -/
structure Answer (σ α : Type) where
  result : Except HostError α
  notices : List HostNotice
  host : Host
  state : σ

def signalEvent : Signal → Exchange.Event
  | .message m => .received m
  | .closed => .closed

/-- Takes what came back over a link. What comes after the link was closed is lost. -/
def takeSignals (e : Exchange) : List Signal → List Exchange.Effect × Exchange
  | [] => ([], e)
  | s :: rest =>
    if e.alive then
      let (effect, e) := e.step (signalEvent s)
      let (effects, e) := takeSignals e rest
      (effect :: effects, e)
    else ([], e)

def noticesOf (effects : List Exchange.Effect) : List HostNotice := effects.flatMap (·.notices)

/-- Lets go of a worker that is gone. -/
def current (h : Host) (t : Transport σ) (s : σ) : Host × σ :=
  match h.running with
  | none => (h, s)
  | some r =>
    if r.exchange.alive then (h, s) else ({ h with running := none }, t.terminate s r.link)

/-- Starts a worker over a link and waits until it is ready. -/
def start (h : Host) (t : Transport σ) (s : σ) (link : Nat) (config : WorkspaceConfig) :
    Answer σ ReadyInfo :=
  let (h, s) := h.current t s
  if h.running.isSome then ⟨.error .alreadyStarted, [], h, t.terminate s link⟩
  else
    let (sent, s) := t.send s link (.init config)
    let (effects, exchange) := takeSignals .start sent.signals
    let notices := noticesOf effects
    match sent.failure with
    | some e => ⟨.error e, notices, h, s⟩
    | none =>
      match effects.findSome? Exchange.Effect.ready with
      | some (.ok info) => ⟨.ok info, notices, { h with running := some ⟨link, exchange⟩ }, s⟩
      | some (.error e) => ⟨.error e, notices, h, t.terminate s link⟩
      | none => ⟨.error (.warmupTimeout h.warmupTimeout), notices, h, t.terminate s link⟩

/-- Puts a request and waits for its reply, at most for a time. -/
def invoke (h : Host) (t : Transport σ) (s : σ) (tool : String) (params : Json) (limit : Nat) :
    Answer σ Json :=
  let (h, s) := h.current t s
  match h.running with
  | none => ⟨.error .notStarted, [], h, s⟩
  | some r =>
    let id := h.nextId
    let (_, exchange) := r.exchange.step (.put id)
    let (sent, s) := t.send s r.link (.invoke id tool params)
    let (effects, exchange) := takeSignals exchange sent.signals
    let answer (e : Exchange) (result : Outcome) : Answer σ Json :=
      ⟨result, noticesOf effects,
        { h with nextId := id + 1, running := some { r with exchange := e } }, s⟩
    match sent.failure with
    | some e => answer (exchange.step (.sendFailed id e)).2 (.error e)
    | none =>
      match (effects.flatMap (·.settled)).lookup id with
      | some outcome => answer exchange outcome
      | none =>
        answer (exchange.step (.timedOut id tool limit)).2 (.error (.requestTimeout id tool limit))

def isRunning (h : Host) (t : Transport σ) (s : σ) : Answer σ Bool :=
  let (h, s) := h.current t s
  ⟨.ok h.running.isSome, [], h, s⟩

/-- Stops the worker, if there is one. -/
def shutdown (h : Host) (t : Transport σ) (s : σ) : Answer σ Unit :=
  match h.running with
  | none => ⟨.ok (), [], h, s⟩
  | some r =>
    let (notices, s) :=
      if r.exchange.alive then
        let (sent, s) := t.send s r.link .shutdown
        (noticesOf (takeSignals r.exchange sent.signals).1, s)
      else ([], s)
    ⟨.ok (), notices, { h with running := none }, t.terminate s r.link⟩

end Host

end DepAtlas
