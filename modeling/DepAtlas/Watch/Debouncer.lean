import DepAtlas.Watch.Change

/-! # Debouncing

A burst of changes of one file is told once, when the file has been left alone for a while. Each file
waits on its own.
-/

namespace DepAtlas.Watch

/-- A change that is waiting to be told. -/
structure Pending where
  path : Path
  change : Change
  /-- When it is to be told, in milliseconds. -/
  due : Nat
  deriving DecidableEq, Repr

namespace Pending

/-- The earlier deadline first, then by path. -/
def le (a b : Pending) : Bool :=
  a.due < b.due || (a.due = b.due && a.path.le b.path)

end Pending

structure Debouncer where
  /-- How long a file must be left alone, in milliseconds. -/
  delay : Nat
  /-- At most one change for each path. -/
  pending : List Pending
  deriving Repr

namespace Debouncer

def new (delay : Nat) : Debouncer := ⟨delay, []⟩

def size (d : Debouncer) : Nat := d.pending.length

def get? (d : Debouncer) (path : Path) : Option Pending := d.pending.find? (·.path = path)

/-- Notes a change of a path. What is already waiting for the path is merged with it and waits
anew. -/
def schedule (d : Debouncer) (path : Path) (change : Change) (now : Nat) : Debouncer :=
  let merged := match d.get? path with
    | some earlier => earlier.change.merge change
    | none => change
  { d with pending := d.pending.filter (·.path ≠ path) ++ [⟨path, merged, now + d.delay⟩] }

/-- Forgets what is waiting for a path. -/
def cancel (d : Debouncer) (path : Path) : Bool × Debouncer :=
  ((d.get? path).isSome, { d with pending := d.pending.filter (·.path ≠ path) })

/-- The next deadline. -/
def next? (d : Debouncer) : Option Nat := (d.pending.map (·.due)).min?

/-- The changes that are due, the oldest deadline first; they wait no longer. -/
def take (d : Debouncer) (now : Nat) : List (Path × Change) × Debouncer :=
  let due := (d.pending.filter (·.due ≤ now)).mergeSort Pending.le
  (due.map fun p => (p.path, p.change),
    { d with pending := d.pending.filter fun p => !(p.due ≤ now) })

def clear (d : Debouncer) : Debouncer := { d with pending := [] }

end Debouncer

end DepAtlas.Watch
