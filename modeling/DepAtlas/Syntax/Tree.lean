import DepAtlas.Text.Blank

/-! # Syntax trees

A tree of constructs and tokens, as a grammar builds it from source text. Every node knows the
text it spans, the lines it starts and ends on, and the part it plays in its parent.
-/

namespace DepAtlas.Syntax

/-- The part a child plays in its parent. -/
inductive Field where
  | alternative | argument | arguments | asName | attribute | body | cause | condition
  | consequence | constraint | ctor | declaration | decorator | definition | field | function
  | guard | handler | increment | index | initializer | key | keyword | label | left | length
  | list | macroName | moduleName | name | object | operator | optionalChain | parameter
  | parameters | path | pattern | property | returnType | right | sign | source | subject
  | subscript | superclasses | target | trait | type | typeArguments | typeParameters | value
  deriving DecidableEq, Repr

/-- What a node is: a construct of the language, or a bare token given by its text. -/
inductive Label (κ : Type) where
  | kind (k : κ)
  | token (text : String)
  deriving DecidableEq, Repr

/-- The stretch of source a node covers; lines count from one. -/
structure Extent where
  text : String
  line : Nat
  endLine : Nat
  deriving DecidableEq, Repr

inductive Tree (κ : Type) where
  | node (label : Label κ) (field : Option Field) (extent : Extent) (children : List (Tree κ))
  deriving Repr

namespace Tree

variable {κ : Type}

def label : Tree κ → Label κ
  | node l _ _ _ => l

def field : Tree κ → Option Field
  | node _ f _ _ => f

def extent : Tree κ → Extent
  | node _ _ e _ => e

def line (t : Tree κ) : Nat := t.extent.line

def endLine (t : Tree κ) : Nat := t.extent.endLine

/-- The construct of a node, if it is not a bare token. -/
def kind? (t : Tree κ) : Option κ :=
  match t.label with
  | .kind k => some k
  | .token _ => none

def isNamed (t : Tree κ) : Bool := t.kind?.isSome

/-- Whether the node plays the part `f`. -/
def inPart (t : Tree κ) (f : Field) : Bool := t.field = some f

/-- The same node in the part `f` of its parent. -/
def inField (f : Field) : Tree κ → Tree κ
  | node l _ e cs => node l (some f) e cs

def children : Tree κ → List (Tree κ)
  | node _ _ _ cs => cs

/-- The text of a node without the blanks around it. -/
def text (t : Tree κ) : String := Text.trim t.extent.text

/-- The children that are constructs. -/
def named (t : Tree κ) : List (Tree κ) :=
  t.children.filter (·.isNamed)

/-- The first child in the given part. -/
def child? (t : Tree κ) (f : Field) : Option (Tree κ) :=
  t.children.find? fun c => c.field = some f

/-- All children in the given part. -/
def childrenIn (t : Tree κ) (f : Field) : List (Tree κ) :=
  t.children.filter fun c => c.field = some f

def hasKind [DecidableEq κ] (t : Tree κ) (k : κ) : Bool := t.label = .kind k

/-- The first child of the given kind. -/
def namedOf? [DecidableEq κ] (t : Tree κ) (k : κ) : Option (Tree κ) :=
  t.children.find? (·.hasKind k)

/-- Whether some child is the bare token `s`. -/
def hasToken (t : Tree κ) (s : String) : Bool :=
  t.children.any fun c => match c.label with
    | .token text => text = s
    | .kind _ => false

/-- Whether some child is of kind `k`. -/
def hasChild [DecidableEq κ] (t : Tree κ) (k : κ) : Bool :=
  t.children.any (·.hasKind k)

/-! ## Walks

A walk meets a node before its children and the children in order. At a node it may change what it
has gathered, and it decides which children it goes on to, and with what knowledge of its place.
-/

/-- What a walk does at a node: the new gathering, and for each child and the siblings after it the
place it is met in, if it is met at all. -/
abbrev Enter (κ γ σ : Type) := γ → Tree κ → σ → σ × (Tree κ → List (Tree κ) → Option γ)

variable {γ σ : Type}

mutual

/-- Walks over a tree from the place `c`. -/
def walk (enter : Enter κ γ σ) (c : γ) : Tree κ → σ → σ
  | node l f e cs, s =>
    let r := enter c (node l f e cs) s
    walkAll enter r.2 cs r.1

def walkAll (enter : Enter κ γ σ) (plan : Tree κ → List (Tree κ) → Option γ) :
    List (Tree κ) → σ → σ
  | [], s => s
  | t :: ts, s =>
    match plan t ts with
    | none => walkAll enter plan ts s
    | some c => walkAll enter plan ts (walk enter c t s)

end

end Tree

end DepAtlas.Syntax
