import DepAtlas.Host.Session
import DepAtlas.Worker.Basic

/-! # A host with a worker of its own

The transport here has one link with a worker behind it, which does its work while a message is sent.
-/

namespace DepAtlas

/-- A host together with its worker. -/
structure Service where
  host : Host
  worker : Worker

namespace Service

/-- The transport that leads to a worker in a world. -/
def transport (w : World) : Transport Worker where
  send k _ m :=
    if k.stopped then
      ({ signals := [], failure := some (.workerTerminated "worker thread has exited") }, k)
    else
      let (out, k) := k.serve w 0 (.message m)
      ({ signals := out.map .message ++ if k.stopped then [.closed] else [] }, k)
  terminate k _ := { k with context := none, stopped := true }

/-- Starts a new worker on a workspace. -/
def start (w : World) (h : Host) (config : WorkspaceConfig) : Except HostError ReadyInfo × Service :=
  let a := h.start (transport w) .new 0 config
  (a.result, ⟨a.host, a.state⟩)

/-- Puts a request to the worker. -/
def invoke (s : Service) (w : World) (tool : String) (params : Json) : Outcome × Service :=
  let a := s.host.invoke (transport w) s.worker tool params s.host.requestTimeout
  (a.result, ⟨a.host, a.state⟩)

/-- Why a file of the tree cannot be run as a worker. Files of a tree are not programs. -/
def spawnError (t : FileTree) (program : String) : HostError :=
  let fault : FileFault := match t.locateText program with
    | .ok _ => .notExecutable
    | .error f => f
  .transport ("spawn " ++ program ++ " worker: " ++ fault.message)

def shutdown (s : Service) (w : World) : Service :=
  let a := s.host.shutdown (transport w) s.worker
  ⟨a.host, a.state⟩

end Service

end DepAtlas
