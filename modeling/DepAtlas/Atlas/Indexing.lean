import DepAtlas.Atlas.Basic

/-! # Indexing

A pass goes through all files of a workspace, one file at each step, so that other work can be done
between two steps. A file whose content is the one in the cache is left as it is. At the end of a pass
the cached files that are no longer there are forgotten.
-/

namespace DepAtlas

structure IndexPass where
  /-- The files still to come. -/
  remaining : List Path
  processed : Nat := 0
  indexed : Nat := 0
  skipped : Nat := 0
  failed : Nat := 0
  /-- Whether the pass is to end before the next file. -/
  cancelled : Bool := false
  deriving DecidableEq, Repr

namespace IndexPass

def total (p : IndexPass) : Nat := p.processed + p.remaining.length

def cancel (p : IndexPass) : IndexPass := { p with cancelled := true }

/-- What the pass has done so far. -/
def summary (p : IndexPass) : Summary := ⟨p.indexed, p.skipped, p.failed, p.cancelled⟩

end IndexPass

/-- What became of a file in a pass. -/
inductive FileOutcome where
  | indexed
  | unchanged
  | failed
  deriving DecidableEq, Repr

/-- What a step of a pass did: a file was handled, with a report now and then, or the pass ended. -/
inductive IndexStep where
  | progress (report : Option IndexStatus)
  | done (summary : Summary)
  deriving DecidableEq, Repr

namespace Atlas

def scanOptions (a : Atlas) : Scan.Options :=
  ⟨a.config.respectIgnoreFiles, a.config.exclude, a.config.maxFiles⟩

/-- Finds the files of the workspace and begins a pass over them. -/
def beginIndex (a : Atlas) (w : World) : Except Failure IndexPass × Atlas :=
  match Scan.files w.tree a.root a.scanOptions with
  | .error e =>
    let failure := e.toFailure
    (.error failure, { a with status := IndexStatus.counting.failed failure.message })
  | .ok files =>
    (.ok { remaining := files },
      { a with status := { IndexStatus.counting with state := .indexing, total := files.length } })

/-- Enters a file unless its content is the one in the cache. A file that cannot be read stays as it
is; one that has no outline is forgotten. -/
def indexFile (a : Atlas) (w : World) (p : Path) : FileOutcome × Atlas :=
  let key := w.tree.key p
  match w.tree.read p with
  | .error _ => (.failed, a)
  | .ok content =>
    let mark := markOf content
    if (a.cache.get? key).any (·.mark = mark) then (.unchanged, a)
    else
      match a.build w key content with
      | .ok node => (.indexed, a.store key mark node)
      | .error _ => (.failed, (a.forget key).2)

/-- Handles a file of a pass. -/
def stepFile (a : Atlas) (w : World) (pass : IndexPass) (file : Path) (rest : List Path) :
    Option IndexStatus × IndexPass × Atlas :=
  let a := { a with status := { a.status with currentFile := some (w.tree.key file) } }
  let pass := { pass with remaining := rest, processed := pass.processed + 1 }
  let (outcome, a) := a.indexFile w file
  let (pass, skipped) := match outcome with
    | .indexed => ({ pass with indexed := pass.indexed + 1 }, a.status.skipped)
    | .unchanged => ({ pass with skipped := pass.skipped + 1 }, a.status.skipped + 1)
    | .failed => ({ pass with failed := pass.failed + 1 }, a.status.skipped)
  let a := { a with status := { a.status with skipped, processed := pass.processed } }
  let tells := pass.processed % w.settings.progressEvery = 0 || rest.isEmpty
  (if tells then some a.status else none, pass, a)

/-- Forgets the cached files that are no longer there. -/
def sweep (a : Atlas) (w : World) : Atlas :=
  (a.cache.paths.filter fun key => !w.tree.isFile (.ofText key)).foldl
    (fun a key => (a.forget key).2) a

/-- Ends a pass. -/
def finishIndex (a : Atlas) (w : World) (pass : IndexPass) : Atlas :=
  let (a, state) : Atlas × IndexState :=
    if pass.cancelled then (a, .idle) else (a.sweep w, .complete)
  { a with status := { a.status with state, currentFile := none } }

/-- The next step of a pass. -/
def indexStep (a : Atlas) (w : World) (pass : IndexPass) : IndexStep × IndexPass × Atlas :=
  if pass.cancelled then (.done pass.summary, pass, a.finishIndex w pass)
  else
    match pass.remaining with
    | [] => (.done pass.summary, pass, a.finishIndex w pass)
    | file :: rest =>
      let (report, pass, a) := a.stepFile w pass file rest
      (.progress report, pass, a)

/-- Goes through all files of a pass, and tells the reports on the way. -/
def indexAll (w : World) : List Path → IndexPass → Atlas → List IndexStatus × IndexPass × Atlas
  | [], pass, a => ([], pass, a)
  | file :: rest, pass, a =>
    let (report, pass, a) := a.stepFile w pass file rest
    let (reports, pass, a) := indexAll w rest pass a
    (report.toList ++ reports, pass, a)

/-- Runs a whole pass. -/
def buildIndex (a : Atlas) (w : World) :
    Except Failure (Summary × List IndexStatus) × Atlas :=
  match a.beginIndex w with
  | (.error e, a) => (.error e, a)
  | (.ok pass, a) =>
    let (reports, pass, a) := indexAll w pass.remaining pass a
    (.ok (pass.summary, reports), a.finishIndex w pass)

/-- Notes the end of a pass; one that was cancelled does not count. -/
def recordWarmup (a : Atlas) (s : Summary) : Atlas :=
  if s.cancelled then a else { a with warmup := ⟨some (s.indexed + s.skipped)⟩ }

end Atlas

end DepAtlas
