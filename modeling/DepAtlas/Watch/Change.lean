import DepAtlas.FileTree

/-! # Changes of files

What happens to a file while one waits is told in three words. Notices of the system about paths are
put into these words by `Notice.changes`.
-/

namespace DepAtlas.Watch

/-- What happened to a file. -/
inductive Change where
  | modified
  | added
  | removed
  deriving DecidableEq, Repr

namespace Change

def name : Change → String
  | modified => "change"
  | added => "add"
  | removed => "unlink"

def all : List Change := [modified, added, removed]

/-- What two changes of one file come to, the second after the first: a new file that is changed is
still new, and a file that goes and comes back has changed. -/
def merge : Change → Change → Change
  | added, modified => added
  | removed, added => modified
  | _, next => next

end Change

/-- What the system tells about one or more paths. -/
inductive Notice where
  | created
  | removed
  | modified
  /-- Only what is known about the file has changed, or it was only looked at. -/
  | touched
  | renamedFrom
  | renamedTo
  /-- The first path has become the second. -/
  | renamedBoth
  /-- A name has changed, from or to. -/
  | renamed
  | unknown
  deriving DecidableEq, Repr

/-- The changes that a notice about some paths tells. -/
def Notice.changes (t : FileTree) (paths : List String) : Notice → List (String × Change)
  | created | renamedTo => paths.map (·, .added)
  | removed | renamedFrom => paths.map (·, .removed)
  | modified | unknown => paths.map (·, .modified)
  | touched => []
  | renamedBoth => (paths.take 2).zip [.removed, .added]
  | renamed => paths.map fun p =>
    match t.locateText p with
    | .ok _ => (p, .added)
    | .error _ => (p, .removed)

end DepAtlas.Watch
