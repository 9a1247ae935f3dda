import DepAtlas.Error
import DepAtlas.Outline.Read
import DepAtlas.Text.Blank

/-! # Settings

Some settings hold for a whole process and come from its environment. Others belong to a workspace and
come with the request to open it; what such a request leaves out has a default.
-/

namespace DepAtlas

/-- Settings of a process. Times are in milliseconds. -/
structure Settings where
  requestTimeout : Nat := 30000
  warmupTimeout : Nat := 300000
  debounce : Nat := 300
  maxDepth : Nat := 10
  /-- Progress is told after every so many files. -/
  progressEvery : Nat := 50
  deriving DecidableEq, Repr

namespace Settings

/-- The least number that a setting cannot hold. -/
def limit : Nat := 0x10000000000000000

/-- A number in decimal digits, with or without a plus sign. -/
def number? (s : String) : Option Nat :=
  let digits := match s.toList with
    | '+' :: rest => rest
    | cs => cs
  if digits = [] || !digits.all Char.isDigit then none
  else
    let n := Nat.ofDigitChars 10 digits 0
    if n < limit then some n else none

/-- A variable of the environment, read in place of a default; with a warning if it is no number. -/
def fromVariable (get : String → Option String) (key : String) (default : Nat) : Nat × List String :=
  match get key with
  | none => (default, [])
  | some value =>
    match number? (Text.trim value) with
    | some n => (n, [])
    | none =>
      (default, ["depspider: Warning: Invalid " ++ key ++ " value: " ++ value ++
        ", using default: " ++ toString default])

/-- The variables that settings come from. -/
def variableNames : List String :=
  ["DEPSPIDER_REQUEST_TIMEOUT_MS", "DEPSPIDER_WARMUP_TIMEOUT_MS", "DEPSPIDER_DEBOUNCE_MS",
    "DEPSPIDER_MAX_DEPTH", "DEPSPIDER_PROGRESS_EVERY"]

/-- The settings that an environment gives, and the warnings about it. -/
def ofEnvironment (get : String → Option String) : Settings × List String :=
  let d : Settings := {}
  let (requestTimeout, w₁) := fromVariable get "DEPSPIDER_REQUEST_TIMEOUT_MS" d.requestTimeout
  let (warmupTimeout, w₂) := fromVariable get "DEPSPIDER_WARMUP_TIMEOUT_MS" d.warmupTimeout
  let (debounce, w₃) := fromVariable get "DEPSPIDER_DEBOUNCE_MS" d.debounce
  let (maxDepth, w₄) := fromVariable get "DEPSPIDER_MAX_DEPTH" d.maxDepth
  let (progressEvery, w₅) := fromVariable get "DEPSPIDER_PROGRESS_EVERY" d.progressEvery
  (⟨requestTimeout, warmupTimeout, debounce, maxDepth, max progressEvery 1⟩,
    w₁ ++ w₂ ++ w₃ ++ w₄ ++ w₅)

end Settings

/-- Settings of a workspace. -/
structure WorkspaceConfig where
  root : String
  maxDepth : Nat
  /-- Openings of module names and what they stand for, in the order of the openings. -/
  aliases : List (String × String)
  exclude : List String
  respectIgnoreFiles : Bool
  warmup : Bool
  watch : Bool
  debounce : Nat
  /-- At most so many files are indexed; zero sets no bound. -/
  maxFiles : Nat
  compilerPaths : Bool
  deriving DecidableEq, Repr

namespace WorkspaceConfig

open Json.Decode

/-- The deepest search that may be asked for. -/
def depthLimit : Nat := 50

def default (s : Settings) : WorkspaceConfig :=
  ⟨"", s.maxDepth, [], [], true, true, true, s.debounce, 0, true⟩

def toJson (c : WorkspaceConfig) : Json :=
  .object [("workspaceRoot", .str c.root), ("maxDepth", .nat c.maxDepth),
    ("aliases", .object (c.aliases.map fun (k, v) => (k, .str v))),
    ("excludePatterns", Json.strings c.exclude), ("respectGitignore", .bool c.respectIgnoreFiles),
    ("enableWarmup", .bool c.warmup), ("enableFileWatcher", .bool c.watch),
    ("debounceMs", .nat c.debounce), ("maxFiles", .nat c.maxFiles),
    ("tsconfigPaths", .bool c.compilerPaths)]

def milliseconds : Json.Decode Nat := natural "u64"

def shape : Shape :=
  ⟨"struct SpiderConfig",
    [.of "workspaceRoot" (textAs "path string") true, .of "maxDepth" count true,
      .of "aliases" (table text) true, .of "excludePatterns" (list text) true,
      .of "respectGitignore" flag true, .of "enableWarmup" flag true,
      .of "enableFileWatcher" flag true, .of "debounceMs" milliseconds true,
      .of "maxFiles" count true, .of "tsconfigPaths" flag true], false⟩

def ofJson (s : Settings) (origin : Origin) : Json.Decode WorkspaceConfig := fun j => do
  let d := default s
  let fields ← shape.read origin j
  return {
    root := ← fields.orElse "workspaceRoot" d.root (textAs "path string")
    maxDepth := ← fields.orElse "maxDepth" d.maxDepth count
    aliases := ← fields.orElse "aliases" d.aliases (table text)
    exclude := ← fields.orElse "excludePatterns" d.exclude (list text)
    respectIgnoreFiles := ← fields.orElse "respectGitignore" d.respectIgnoreFiles flag
    warmup := ← fields.orElse "enableWarmup" d.warmup flag
    watch := ← fields.orElse "enableFileWatcher" d.watch flag
    debounce := ← fields.orElse "debounceMs" d.debounce milliseconds
    maxFiles := ← fields.orElse "maxFiles" d.maxFiles count
    compilerPaths := ← fields.orElse "tsconfigPaths" d.compilerPaths flag }

/-- The configuration with the path by which its root is known, if the root is a directory and the
depth is allowed. -/
def validate (c : WorkspaceConfig) (t : FileTree) : Except Failure WorkspaceConfig :=
  if c.root = "" then .error (.plain "workspaceRoot is required")
  else
    match t.locateText c.root with
    | .error _ => .error (.plain ("workspaceRoot " ++ c.root ++ " is not a directory"))
    | .ok l =>
      if t.lookup l ≠ some .directory then
        .error (.plain ("workspaceRoot " ++ c.root ++ " is not a directory"))
      else if depthLimit < c.maxDepth then
        .error (.plain ("maxDepth must be within 0..=50, got " ++ toString c.maxDepth))
      else .ok { c with root := (Location.path l).toText }

end WorkspaceConfig

end DepAtlas
