import DepAtlas.Outline.Read

/-! # The state of an index -/

namespace DepAtlas

inductive IndexState where
  | idle
  | counting
  | indexing
  | validating
  | complete
  | error
  deriving DecidableEq, Repr

namespace IndexState

def name : IndexState → String
  | idle => "idle"
  | counting => "counting"
  | indexing => "indexing"
  | validating => "validating"
  | complete => "complete"
  | error => "error"

def all : List IndexState := [idle, counting, indexing, validating, complete, error]

def isActive : IndexState → Bool
  | counting | indexing | validating => true
  | idle | complete | error => false

def ofJson : Json.Decode IndexState := Json.Decode.oneOf .direct all name

end IndexState

/-- How far indexing has come. -/
structure IndexStatus where
  state : IndexState := .idle
  processed : Nat := 0
  total : Nat := 0
  skipped : Nat := 0
  currentFile : Option String := none
  error : Option String := none
  deriving DecidableEq, Repr

namespace IndexStatus

def toJson (s : IndexStatus) : Json :=
  .objectOf [some ("state", .str s.state.name), some ("processed", .nat s.processed),
    some ("total", .nat s.total), some ("skipped", .nat s.skipped),
    Json.field? "currentFile" s.currentFile .str, Json.field? "error" s.error .str]

/-- The status when a pass begins. -/
def counting : IndexStatus := { state := .counting }

/-- The status when a pass could not begin. -/
def failed (s : IndexStatus) (message : String) : IndexStatus :=
  { s with state := .error, error := some message, currentFile := none }

end IndexStatus

/-- What a pass over all files did. Times are not kept. -/
structure Summary where
  indexed : Nat
  skipped : Nat
  failed : Nat
  cancelled : Bool
  deriving DecidableEq, Repr

def Summary.toJson (s : Summary) : Json :=
  .object [("durationMs", .nat 0), ("indexedFiles", .nat s.indexed),
    ("skippedFiles", .nat s.skipped), ("failedFiles", .nat s.failed),
    ("cancelled", .bool s.cancelled)]

/-- How many files the last pass that ended found in order; none before the first. -/
structure Warmup where
  filesIndexed : Option Nat := none
  deriving DecidableEq, Repr

namespace Warmup

def completed (w : Warmup) : Bool := w.filesIndexed.isSome

def toJson (w : Warmup) : Json :=
  .objectOf [some ("completed", .bool w.completed),
    Json.field? "durationMs" w.filesIndexed (fun _ => .nat 0),
    Json.field? "filesIndexed" w.filesIndexed .nat]

end Warmup

end DepAtlas
