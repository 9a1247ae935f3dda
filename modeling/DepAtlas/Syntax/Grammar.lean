import DepAtlas.Syntax.Tree

/-! # Grammars

A grammar is data: named rules built from tokens, sequence, ordered choice and repetition, with
marks for the constructs they stand for. `Grammar.parse?` is the one reader for all of them. A
choice commits to the first branch that reads something, so a rule is a function of the text.

Blanks and comments may stand before any token. A comment becomes a child of the innermost
construct with tokens on both sides of it.
-/

namespace DepAtlas.Syntax

/-- What the reader knows about lines: the open indentations, innermost first, and whether it is
inside brackets, where line ends carry no meaning. -/
structure Layout where
  indents : List Nat
  enclosed : Bool
  deriving DecidableEq, Repr

/-- A position in the source together with all that follows it. -/
structure Cursor where
  rest : List Char
  offset : Nat
  line : Nat
  layout : Layout
  deriving Repr

namespace Cursor

def ofText (s : String) : Cursor :=
  ⟨s.toList, 0, 1, ⟨[0], false⟩⟩

/-- The position `n` characters further on. -/
def advance (c : Cursor) : Nat → Cursor
  | 0 => c
  | n + 1 => match c with
    | ⟨[], _, _, _⟩ => c
    | ⟨x :: rest, o, l, y⟩ => advance ⟨rest, o + 1, if x = '\n' then l + 1 else l, y⟩ n

/-- The stretch of source from one position up to a later one. -/
def extentTo (c d : Cursor) : Extent :=
  ⟨String.ofList (c.rest.take (d.offset - c.offset)), c.line, d.line⟩

end Cursor

/-- A parsing expression with constructs `κ`, tokens `τ` and rule names `ν`. -/
inductive Peg (κ τ ν : Type) where
  /-- Reads nothing. -/
  | done
  /-- A bare token. -/
  | token (t : τ)
  /-- A token that is a construct by itself. -/
  | leaf (k : κ) (t : τ)
  | rule (n : ν)
  | seq (p q : Peg κ τ ν)
  /-- The second branch is taken only where the first fails. -/
  | alt (p q : Peg κ τ ν)
  /-- As many copies as there are. -/
  | many (p : Peg κ τ ν)
  /-- A construct whose children `p` reads. -/
  | node (k : κ) (p : Peg κ τ ν)
  /-- What `p` reads plays the part `f`. -/
  | field (f : Field) (p : Peg κ τ ν)
  /-- Reads `p` on its own, so that `grow` inside it wraps only what `p` has read. -/
  | frame (p : Peg κ τ ν)
  /-- Wraps what the frame has read so far, in the part `f`, and what `p` reads after it. -/
  | grow (k : κ) (f : Option Field) (p : Peg κ τ ν)
  /-- Succeeds without reading where `p` would succeed. -/
  | ahead (p : Peg κ τ ν)
  /-- Succeeds without reading where `p` would fail. -/
  | absent (p : Peg κ τ ν)
  /-- Reads `p` inside brackets, or on lines of its own again. -/
  | enclosed (inside : Bool) (p : Peg κ τ ν)

namespace Peg

variable {κ τ ν : Type}

instance : Append (Peg κ τ ν) := ⟨seq⟩

instance : OrElse (Peg κ τ ν) := ⟨fun p q => alt p (q ())⟩

def opt (p : Peg κ τ ν) : Peg κ τ ν := alt p done

def many1 (p : Peg κ τ ν) : Peg κ τ ν := p ++ many p

/-- One or more `p` with `s` between. -/
def sepBy1 (p s : Peg κ τ ν) : Peg κ τ ν := p ++ many (s ++ p)

/-- Any number of `p` with `s` between. -/
def sepBy (p s : Peg κ τ ν) : Peg κ τ ν := opt (sepBy1 p s)

/-- Reads `p` and lets `q` grow it as often as possible. -/
def chain (p q : Peg κ τ ν) : Peg κ τ ν := frame (p ++ many q)

/-- The first of a list of branches that reads something. -/
def oneOf : List (Peg κ τ ν) → Peg κ τ ν
  | [] => absent done
  | [p] => p
  | p :: q :: ps => alt p (oneOf (q :: ps))

end Peg

structure Grammar (κ τ ν : Type) where
  start : ν
  rule : ν → Peg κ τ ν
  /-- The length of a token at a position, and the layout after it. -/
  scan : τ → Cursor → Option (Nat × Layout)
  /-- The length of a run of blanks, or of a comment and its kind. -/
  skip : Cursor → Option (Nat × Option κ)
  /-- The tokens before which no blanks may stand. -/
  glued : τ → Bool

namespace Grammar

variable {κ τ ν : Type}

/-- The construct being read: where it starts, and its parts so far, last first. -/
structure State (κ : Type) where
  cursor : Cursor
  start : Cursor
  trees : List (Tree κ)

/-- Moves over blanks and comments, keeping the comments. The number bounds how many there are. -/
def skipAll (g : Grammar κ τ ν) : Nat → Cursor → List (Tree κ) → Cursor × List (Tree κ)
  | 0, c, ts => (c, ts)
  | n + 1, c, ts =>
    match g.skip c with
    | none => (c, ts)
    | some (k, none) => g.skipAll n (c.advance k) ts
    | some (k, some kind) =>
      let d := c.advance k
      g.skipAll n d (.node (.kind kind) none (c.extentTo d) [] :: ts)

/-- Reads one token. A token of no length leaves no trace but the layout. -/
def read (g : Grammar κ τ ν) (blanks : Nat) (t : τ) (label : String → Label κ) (s : State κ) :
    Option (State κ) :=
  let (c, ts) := if g.glued t then (s.cursor, s.trees) else g.skipAll blanks s.cursor s.trees
  match g.scan t c with
  | none => none
  | some (0, layout) => some { s with cursor := { s.cursor with layout := layout } }
  | some (k + 1, layout) =>
    let d := { c.advance (k + 1) with layout := layout }
    let e := c.extentTo d
    some { s with cursor := d, trees := .node (label e.text) none e [] :: ts }

/-- Runs a parsing expression. Blanks and comments stand at most `blanks` in a row; the number after
it bounds the nesting of the run. -/
def run (g : Grammar κ τ ν) (blanks : Nat) : Nat → Peg κ τ ν → State κ → Option (State κ)
  | 0, _, _ => none
  | n + 1, p, s =>
    match p with
    | .done => some s
    | .token t => g.read blanks t .token s
    | .leaf k t => g.read blanks t (fun _ => .kind k) s
    | .rule r => g.run blanks n (g.rule r) s
    | .seq p q =>
      match g.run blanks n p s with
      | none => none
      | some s' => g.run blanks n q s'
    | .alt p q =>
      match g.run blanks n p s with
      | none => g.run blanks n q s
      | some s' => some s'
    | .many p =>
      match g.run blanks n p s with
      | none => some s
      | some s' =>
        if s'.cursor.offset = s.cursor.offset then some s else g.run blanks n (.many p) s'
    | .node k p =>
      let (c, ts) := g.skipAll blanks s.cursor s.trees
      match g.run blanks n p ⟨c, c, []⟩ with
      | none => none
      | some s' =>
        let t := Tree.node (.kind k) none (c.extentTo s'.cursor) s'.trees.reverse
        some ⟨s'.cursor, s.start, t :: ts⟩
    | .field f p =>
      let (c, ts) := g.skipAll blanks s.cursor s.trees
      match g.run blanks n p ⟨c, s.start, []⟩ with
      | none => none
      | some s' => some ⟨s'.cursor, s.start, s'.trees.map (·.inField f) ++ ts⟩
    | .frame p =>
      let (c, ts) := g.skipAll blanks s.cursor s.trees
      match g.run blanks n p ⟨c, c, []⟩ with
      | none => none
      | some s' => some ⟨s'.cursor, s.start, s'.trees ++ ts⟩
    | .grow k f p =>
      let held := match f with
        | none => s.trees
        | some f => s.trees.map (·.inField f)
      match g.run blanks n p { s with trees := held } with
      | none => none
      | some s' =>
        let t := Tree.node (.kind k) none (s.start.extentTo s'.cursor) s'.trees.reverse
        some { s' with trees := [t] }
    | .ahead p =>
      match g.run blanks n p s with
      | none => none
      | some _ => some s
    | .absent p =>
      match g.run blanks n p s with
      | none => some s
      | some _ => none
    | .enclosed b p =>
      let held := s.cursor.layout
      match g.run blanks n p
        { s with cursor := { s.cursor with layout := { held with enclosed := b } } } with
      | none => none
      | some s' =>
        let layout := { s'.cursor.layout with enclosed := held.enclosed }
        some { s' with cursor := { s'.cursor with layout := layout } }

/-- A bound on the nesting of a run over a text of the given length. -/
def depthBound (length : Nat) : Nat := 400 * (length + 4)

/-- The tree of a text, if the start rule reads some beginning of it. -/
def parse? (g : Grammar κ τ ν) (s : String) : Option (Tree κ) :=
  let c := Cursor.ofText s
  match g.run (s.length + 1) (depthBound s.length) (.rule g.start) ⟨c, c, []⟩ with
  | none => none
  | some s' => s'.trees.head?

end Grammar

end DepAtlas.Syntax
