import DepAtlas.Path
import DepAtlas.Text.Utf8

/-! # File trees

A file tree says for each location what stands there: a file, a directory or a link to elsewhere.
A path leads to a location by its steps, and a link on the way is replaced by the path it holds.
The number of links that one path may pass is bounded, so that following a path always ends.
-/

namespace DepAtlas

/-- The names from the top of the tree down to a place. -/
abbrev Location := List String

inductive Entry where
  | file (content : List UInt8)
  | directory
  | link (target : String)
  deriving DecidableEq, Repr

/-- Why a path leads nowhere, or cannot be used as asked. -/
inductive FileFault where
  | missing
  | notDirectory
  | isDirectory
  | tooManyLinks
  | longName
  | notEmpty
  | notExecutable
  | notText
  deriving DecidableEq, Repr

namespace FileFault

/-- The system's words for a fault. -/
def message : FileFault → String
  | missing => "No such file or directory (os error 2)"
  | notDirectory => "Not a directory (os error 20)"
  | isDirectory => "Is a directory (os error 21)"
  | tooManyLinks => "Too many levels of symbolic links (os error 40)"
  | longName => "File name too long (os error 36)"
  | notEmpty => "Directory not empty (os error 39)"
  | notExecutable => "Permission denied (os error 13)"
  | notText => "stream did not contain valid UTF-8"

/-- The words for the kind of a fault. -/
def kind : FileFault → String
  | missing => "entity not found"
  | notDirectory => "not a directory"
  | isDirectory => "is a directory"
  | tooManyLinks => "filesystem loop or indirection limit (e.g. symlink loop)"
  | longName => "invalid filename"
  | notEmpty => "directory not empty"
  | notExecutable => "permission denied"
  | notText => "invalid data"

end FileFault

/-- What stands where, and the place from which paths without a root start. -/
structure FileTree where
  entries : List (Location × Entry)
  start : Location
  deriving Repr

namespace Location

/-- The path that leads to a location without passing a link. -/
def path (l : Location) : Path := ⟨true, l.map .enter⟩

end Location

namespace FileTree

def empty : FileTree := ⟨[], []⟩

/-- What stands at a location; the top of the tree is a directory. -/
def lookup (t : FileTree) (l : Location) : Option Entry :=
  if l = [] then some .directory else (t.entries.find? (·.1 = l)).map (·.2)

/-- How many links one path may pass. -/
def linkLimit : Nat := 40

/-- How many bytes a name may have. -/
def nameLimit : Nat := 255

/-- Follows steps from a location up to the first link. From there `onLink` goes on: from the place
where the link starts, with the steps of the link and those that are left. -/
def followWith (t : FileTree) (onLink : Location → List Step → Except FileFault Location)
    (l : Location) : List Step → Except FileFault Location
  | [] => .ok l
  | step :: rest =>
    match t.lookup l with
    | none => .error .missing
    | some (.file _) | some (.link _) => .error .notDirectory
    | some .directory =>
      match step with
      | .here => t.followWith onLink l rest
      | .up => t.followWith onLink l.dropLast rest
      | .enter name =>
        if nameLimit < name.utf8ByteSize then .error .longName
        else
          match t.lookup (l ++ [name]) with
          | none => .error .missing
          | some (.file _) | some .directory => t.followWith onLink (l ++ [name]) rest
          | some (.link target) =>
            onLink (if Path.isRootedText target then [] else l) (Step.allOf target ++ rest)

/-- Follows steps from a location, passing at most so many links. -/
def follow (t : FileTree) : Nat → Location → List Step → Except FileFault Location
  | 0 => t.followWith fun _ _ => .error .tooManyLinks
  | links + 1 => t.followWith (t.follow links)

/-- The location that a path leads to. -/
def locate (t : FileTree) (p : Path) : Except FileFault Location :=
  if p.rooted then t.follow linkLimit [] p.steps
  else if p.steps = [] then .error .missing
  else t.follow linkLimit t.start p.steps

/-- The location that the text of a path leads to. A text that ends in a slash or a step that stays
asks for a directory. -/
def locateText (t : FileTree) (text : String) : Except FileFault Location :=
  if text = "" then .error .missing
  else t.follow linkLimit (if Path.isRootedText text then [] else t.start) (Step.allOf text)

/-- What stands where a path leads. -/
def entry? (t : FileTree) (p : Path) : Option Entry :=
  match t.locate p with
  | .ok l => t.lookup l
  | .error _ => none

def isFile (t : FileTree) (p : Path) : Bool :=
  match t.entry? p with
  | some (.file _) => true
  | _ => false

def isDirectory (t : FileTree) (p : Path) : Bool :=
  t.entry? p = some .directory

/-- The bytes of the file that a path leads to. -/
def read (t : FileTree) (p : Path) : Except FileFault (List UInt8) := do
  match t.lookup (← t.locate p) with
  | some (.file content) => pure content
  | some .directory => throw .isDirectory
  | _ => throw .missing

/-- The text of the file that a path leads to. -/
def readText (t : FileTree) (p : Path) : Except FileFault String := do
  match Text.decode? (← t.read p) with
  | some text => pure text
  | none => throw .notText

/-- The path by which a file is known: free of links where something stands there, and clean. -/
def settle (t : FileTree) (p : Path) : Path :=
  match t.locate p.clean with
  | .ok l => Location.path l
  | .error _ => p.clean

/-- The text of the path by which a file is known. -/
def key (t : FileTree) (p : Path) : String := (t.settle p).toText

/-- Puts an entry at a location, in place of what stands there. -/
def put (t : FileTree) (l : Location) (e : Entry) : FileTree :=
  if (t.entries.any (·.1 = l)) then
    { t with entries := t.entries.map fun x => if x.1 = l then (l, e) else x }
  else { t with entries := t.entries ++ [(l, e)] }

/-- Puts a directory at each location on the way to `l` where nothing stands yet. -/
def ensureAbove (t : FileTree) (l : Location) : FileTree :=
  (List.range l.length).foldl
    (fun t n => if (t.lookup (l.take n)).isNone then t.put (l.take n) .directory else t) t

/-- Puts an entry at a location, with the directories above it. -/
def place (t : FileTree) (l : Location) (e : Entry) : FileTree := (t.ensureAbove l).put l e

/-- The location of the last step of a path, where the way to it exists. A link there is not
followed. -/
def locateLast (t : FileTree) (p : Path) : Except FileFault Location := do
  match p.name? with
  | none => t.locate p
  | some name =>
    let above ← t.locate p.up
    match t.lookup above with
    | some .directory => pure (above ++ [name])
    | _ => throw .notDirectory

/-- Makes the directory that a path leads to, and those on the way. -/
def makeDirectory (t : FileTree) (p : Path) : Except FileFault FileTree :=
  (List.range (p.steps.length + 1)).foldlM (fun t n => do
    let q : Path := ⟨p.rooted, p.steps.take n⟩
    match t.entry? q with
    | some .directory => pure t
    | some _ => throw .notDirectory
    | none =>
      let l ← t.locateLast q
      if (t.lookup l).isSome then throw .notDirectory else pure (t.put l .directory)) t

/-- Writes a file, and makes the directories on the way to it. -/
def write (t : FileTree) (p : Path) (content : List UInt8) : Except FileFault FileTree := do
  let t ← t.makeDirectory p.up
  match t.locate p with
  | .ok l =>
    if t.lookup l = some .directory then throw .isDirectory else pure (t.put l (.file content))
  | .error .missing => pure (t.put (← t.locateLast p) (.file content))
  | .error fault => throw fault

/-- Takes away a file or a link. -/
def remove (t : FileTree) (p : Path) : Except FileFault FileTree := do
  let l ← t.locateLast p
  match t.lookup l with
  | none => throw .missing
  | some .directory => throw .isDirectory
  | some _ => pure { t with entries := t.entries.filter (·.1 ≠ l) }

/-- Takes away a directory with all that stands below it. -/
def removeDirectory (t : FileTree) (p : Path) : Except FileFault FileTree := do
  let l ← t.locateLast p
  match t.lookup l with
  | none => throw .missing
  | some .directory => pure { t with entries := t.entries.filter fun x => !l.isPrefixOf x.1 }
  | some _ => throw .notDirectory

/-- Moves what stands at one path to another, with all that stands below it. -/
def move (t : FileTree) (p q : Path) : Except FileFault FileTree := do
  let l ← t.locateLast p
  let m ← t.locateLast q
  match t.lookup l, t.lookup m with
  | none, _ => throw .missing
  | some .directory, some (.file _) | some .directory, some (.link _) => throw .notDirectory
  | some (.file _), some .directory | some (.link _), some .directory => throw .isDirectory
  | some _, _ =>
    if l = m then pure t
    else if t.entries.any fun x => m.isPrefixOf x.1 && x.1 ≠ m then throw .notEmpty
    else
      let kept := t.entries.filter (·.1 ≠ m)
      pure { t with entries := kept.map fun x =>
        if l.isPrefixOf x.1 then (m ++ x.1.drop l.length, x.2) else x }

end FileTree

end DepAtlas
