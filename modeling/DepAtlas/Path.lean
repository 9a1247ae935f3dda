import DepAtlas.Text.Pieces

/-! # Paths

A path is a sequence of steps, from the root of the file tree or from wherever one stands. What a
path denotes does not depend on how it was written: doubled slashes and steps to where one stands
already are not part of it. `Path.clean` takes back a step for each step up, by the text alone.
-/

namespace DepAtlas

/-- One step of a path. -/
inductive Step where
  /-- Stay; the place must be a directory. -/
  | here
  /-- Go to the directory above. -/
  | up
  | enter (name : String)
  deriving DecidableEq, Repr

namespace Step

def ofText (s : String) : Step :=
  if s = "" || s = "." then here else if s = ".." then up else enter s

def text : Step → String
  | here => "."
  | up => ".."
  | enter name => name

/-- Steps that stay come first, then steps up, then names in the order of their characters. -/
def before : Step → Step → Bool
  | _, here => false
  | here, _ => true
  | _, up => false
  | up, enter _ => true
  | enter a, enter b => a < b

/-- The steps of a text, with those that stay. -/
def allOf (text : String) : List Step :=
  (Text.pieces (· = '/') text).map ofText

end Step

structure Path where
  rooted : Bool
  steps : List Step
  deriving DecidableEq, Repr

namespace Path

instance : Inhabited Path := ⟨⟨false, []⟩⟩

/-- The top of the file tree. -/
def root : Path := ⟨true, []⟩

/-- Whether a text is that of a rooted path. -/
def isRootedText (text : String) : Bool := text.toList.head? = some '/'

def ofText (text : String) : Path :=
  ⟨isRootedText text, (Step.allOf text).filter (· ≠ .here)⟩

def toText (p : Path) : String :=
  (if p.rooted then "/" else "") ++ "/".intercalate (p.steps.map Step.text)

instance : ToString Path := ⟨toText⟩

/-- The path `q`, taken from where `p` leads. -/
def join (p q : Path) : Path :=
  if q.rooted then q else ⟨p.rooted, p.steps ++ q.steps⟩

/-- A named place below `p`; the name may hold slashes. -/
def child (p : Path) (name : String) : Path := p.join (ofText name)

/-- The text of `q`, taken from where the text `p` leads, as it is written. -/
def joinText (p q : String) : String :=
  if isRootedText q || p = "" then q
  else if p.toList.getLast? = some '/' then p ++ q
  else p ++ "/" ++ q

/-- All steps but the last. -/
def parent? (p : Path) : Option Path :=
  if p.steps = [] then none else some ⟨p.rooted, p.steps.dropLast⟩

/-- The path above, or the path itself where there is none. -/
def up (p : Path) : Path := (p.parent?).getD p

/-- The name that the last step enters. -/
def name? (p : Path) : Option String :=
  match p.steps.getLast? with
  | some (.enter name) => some name
  | _ => none

/-- A name up to its last point, and what follows that point. A point at the start of a name does
not count. -/
def splitName (name : String) : String × Option String :=
  let tail := (name.toList.reverse.takeWhile (· ≠ '.')).reverse
  let head := name.toList.take (name.length - tail.length - 1)
  if head = [] then (name, none) else (String.ofList head, some (String.ofList tail))

def extension? (p : Path) : Option String := p.name?.bind fun n => (splitName n).2

def stem? (p : Path) : Option String := p.name?.map fun n => (splitName n).1

/-- The path with another last name. -/
def withName (p : Path) (name : String) : Path := ⟨p.rooted, p.steps.dropLast ++ [.enter name]⟩

/-- The path with another extension, if it ends in a name. -/
def withExtension (p : Path) (extension : String) : Path :=
  match p.stem? with
  | none => p
  | some stem => p.withName (stem ++ "." ++ extension)

/-- The path whose text goes on with `ending`. -/
def extended (p : Path) (ending : String) : Path :=
  match p.steps.getLast? with
  | none => ⟨p.rooted, [.enter ending]⟩
  | some step => p.withName (step.text ++ ending)

/-- Whether `p` is `q` or leads to somewhere below it, step by step. Every path is below the path
without steps. -/
def isUnder (p q : Path) : Bool :=
  q = ⟨false, []⟩ || (p.rooted = q.rooted && q.steps.isPrefixOf p.steps)

/-- The way from `q` to `p`, if `p` leads below `q`. -/
def below? (p q : Path) : Option Path :=
  if p.isUnder q then some ⟨false, p.steps.drop q.steps.length⟩ else none

/-- The steps of a clean path after one more step: a step up takes back the last step, whatever it
is, and stands for itself only where there is none. -/
def cleanStep (done : List Step) : Step → List Step
  | .here => done
  | .up => if done = [] then [.up] else done.dropLast
  | .enter name => done ++ [.enter name]

/-- The path without the steps that later steps up take back. The file tree is not looked at, so
the result does not change when files go. -/
def clean (p : Path) : Path := ⟨p.rooted, p.steps.foldl cleanStep []⟩

/-- Whether `p`, by its text, leads below `root`. -/
def isWithin (root p : Path) : Bool := p.clean.isUnder root.clean

def stepsBefore : List Step → List Step → Bool
  | _, [] => false
  | [], _ :: _ => true
  | a :: as, b :: bs => a.before b || (a = b && stepsBefore as bs)

/-- Rooted paths come first; then the order goes step by step. -/
def before (p q : Path) : Bool :=
  if p.rooted = q.rooted then stepsBefore p.steps q.steps else p.rooted

/-- `p` comes before `q`, or is `q`. -/
def le (p q : Path) : Bool := !q.before p

/-- `p` and each path above it, as far as `root`; nothing if `p` is not below `root`. -/
def upTo (root p : Path) : List Path :=
  if p.isUnder root then
    (List.range (p.steps.length - root.steps.length + 1)).map fun n =>
      ⟨p.rooted, p.steps.take (p.steps.length - n)⟩
  else []

end Path

end DepAtlas
