import DepAtlas.Outline.Draft
import DepAtlas.Syntax.RustGrammar
import DepAtlas.Text.Letter
import DepAtlas.Text.Pieces

/-! # Outlines of Rust

A walk over the syntax tree. Methods belong to the type of their block, and are exported with it.
-/

namespace DepAtlas.Outline.Rust

open DepAtlas.Syntax.Rust (Kind)

abbrev Node := Syntax.Tree Kind

/-- How a node is looked at. -/
inductive Mode where
  | plain
  /-- Only its children count. -/
  | inside
  /-- As what is called or accessed. -/
  | callee (isCall : Bool)
  /-- As the name of a type. -/
  | typeName
  deriving DecidableEq, Repr

structure Place where
  /-- The inline module around, `a.b` for a module `b` inside `a`. -/
  modulePath : Option String
  /-- The type whose members are declared. -/
  owner : Option String
  ownerExported : Bool
  /-- The members are seen through a trait. -/
  throughTrait : Bool
  scope : Option String
  inFunction : Bool
  inType : Bool
  mode : Mode
  parent : Option Kind
  /-- A group in parentheses comes right after. -/
  beforeGroup : Bool
  deriving Repr

namespace Place

def top : Place := ⟨none, none, false, false, none, false, false, .plain, none, false⟩

def typed (p : Place) : Place := { p with inType := true }

def runtime (p : Place) : Place := { p with inType := false }

def within (p : Place) (m : Mode) : Place := { p with mode := m }

def qualify (p : Place) (name : String) : String :=
  match p.owner, p.modulePath with
  | some owner, _ => owner ++ "." ++ name
  | none, some m => m ++ "." ++ name
  | none, none => name

end Place

abbrev Plan := Node → List Node → Option Place

def stop : Plan := fun _ _ => none

/-- Whether a group of tokens in parentheses comes next. -/
def startsGroup : List Node → Bool
  | [] => false
  | t :: _ => t.hasKind .tokenTree && t.text.startsWith "("

/-- Goes on to every construct below `t`. -/
def inward (t : Node) (p : Place) : Plan := fun c rest =>
  if c.isNamed then
    some { p with mode := .plain, parent := t.kind?, beforeGroup := startsGroup rest }
  else none

/-- Goes on to the children whose part has a place. -/
def byField (t : Node) (f : Syntax.Field → Option Place) : Plan := fun c rest =>
  (c.field.bind f).map fun p => { p with parent := t.kind?, beforeGroup := startsGroup rest }

def refer (p : Place) (name : String) (member : Option String) (line : Nat) (isCall : Bool)
    (d : Draft) : Draft :=
  d.refer ⟨p.scope, name, member, line, isCall, p.inType⟩

/-- Whether the declaration is visible everywhere. -/
def isPublic (t : Node) : Bool :=
  t.children.any fun c => c.hasKind .visibilityModifier && c.text = "pub"

/-- Whether an identifier introduces a name rather than mentioning one. -/
def isBinding (parent : Option Kind) (t : Node) : Bool :=
  match parent with
  | none => false
  | some k =>
    match k with
    | .letDeclaration | .parameter | .forExpression => t.inPart .pattern
    | .functionItem | .functionSignatureItem | .modItem | .macroDefinition => t.inPart .name
    | .closureParameters | .tuplePattern | .slicePattern | .refPattern | .mutPattern
    | .capturedPattern | .fieldPattern | .macroInvocation | .label | .lifetime => true
    | .fieldInitializer => t.inPart .field
    | _ => false

/-- The pieces of a text between the occurrences of a double colon. -/
def splitColons (s : String) : List String := Text.splitText "::" s

def lastSegment (path : String) : String :=
  Text.trim ((splitColons path).getLast?.getD path)

/-! ## Imports -/

/-- One name that a `use` brings in. -/
structure UseLeaf where
  path : List String
  asName : Option String
  wildcard : Bool
  deriving Repr

def segments (path : String) : List String :=
  ((splitColons path).map Text.trim).filter (· ≠ "")

/-- The text of a wildcard without the star and the colons before it. -/
def withoutStar (s : String) : String :=
  let bare := Text.dropTrailing (· = '*') s
  go bare.toList.length bare.toList.reverse
where
  go : Nat → List Char → String
    | n + 1, ':' :: ':' :: cs => go n cs
    | _, cs => String.ofList cs.reverse

/-- The path a leaf of a `use` stands for; `self` stands for the path before it. -/
def leafPath (lead : List String) (text : String) : List String :=
  let path := lead ++ segments text
  if path.length > 1 && path.getLast? = some "self" then path.dropLast else path

def enterUse : Syntax.Tree.Enter Kind (List String) (List UseLeaf) := fun lead t leaves =>
  match t.kind? with
  | some .scopedUseList =>
    let path := match t.child? .path with
      | some p => lead ++ segments p.text
      | none => lead
    (leaves, fun c _ => if c.inPart .list then some path else none)
  | some .useList => (leaves, fun c _ => if c.isNamed then some lead else none)
  | some .useAsClause =>
    (match t.child? .path with
      | some p =>
        ⟨lead ++ segments p.text, (t.child? .asName).map (·.text), false⟩ :: leaves
      | none => leaves, fun _ _ => none)
  | some .useWildcard =>
    (⟨lead ++ segments (withoutStar t.text), none, true⟩ :: leaves, fun _ _ => none)
  | _ =>
    let path := leafPath lead t.text
    (if path.isEmpty then leaves else ⟨path, none, false⟩ :: leaves, fun _ _ => none)

/-- The module a leaf comes from, and the name it binds. -/
def leafBinding? (leaf : UseLeaf) : Option (List String × Binding) :=
  if leaf.wildcard then some (leaf.path, ⟨"*", "*", false, true⟩)
  else
    leaf.path.getLast?.map fun name =>
      let lower := match name.toList with
        | c :: _ => Text.isLowercase c
        | [] => false
      (leaf.path.dropLast, ⟨name, leaf.asName.getD name, false, lower⟩)

/-- Adds a binding to the group of its module, which is opened where there is none. -/
def addToGroup (m : List String) (b : Binding) :
    List (List String × List Binding) → List (List String × List Binding)
  | [] => [(m, [b])]
  | (n, bs) :: rest => if n = m then (n, bs ++ [b]) :: rest else (n, bs) :: addToGroup m b rest

/-- The import of one group. A single name stays part of the path, which may lead to its file. -/
def groupImport? (line : Nat) (m : List String) (bs : List Binding) : Option Import :=
  let path := match bs with
    | [b] => if b.imported ≠ "*" then m ++ [b.imported] else m
    | _ => m
  if path.isEmpty then none else some ⟨String.intercalate "::" path, .plain, line, bs⟩

def useImports (t : Node) : List Import :=
  match t.child? .argument with
  | none => []
  | some a =>
    let leaves := (Syntax.Tree.walk enterUse [] a []).reverse
    let groups := (leaves.filterMap leafBinding?).foldl (fun gs (m, b) => addToGroup m b gs) []
    groups.filterMap fun (m, bs) => groupImport? t.line m bs

/-! ## Signatures -/

def param? (t : Node) : Option Param :=
  match t.kind? with
  | some .parameter =>
    some ⟨((t.child? .pattern).map (·.text)).getD "", (t.child? .type).map (·.text), false, false⟩
  | some .variadicParameter => some ⟨"...", none, false, true⟩
  | _ => none

def signature (t : Node) : Signature :=
  ⟨match t.child? .parameters with
    | some list => list.named.filterMap param?
    | none => [],
    (t.child? .returnType).map (·.text),
    t.named.any fun c => c.hasKind .functionModifiers && c.hasToken "async"⟩

/-! ## The walk -/

def enterModule (p : Place) (t : Node) (d : Draft) : Draft × Plan :=
  match t.child? .name with
  | none => (d, stop)
  | some n =>
    let name := n.text
    if (t.child? .body).isNone then
      (if p.modulePath.isNone then
        d.addImport ⟨"self::" ++ name, .childModule, t.line, [⟨name, name, false, true⟩]⟩
        else d, stop)
    else
      let qualified := p.qualify name
      let inner := { Place.top with modulePath := some qualified }
      (d.declare ⟨name, qualified, .moduleBlock, t.line, t.endLine, isPublic t, p.modulePath, none⟩,
        byField t fun
          | .body => some inner
          | _ => none)

def enterFunction (p : Place) (t : Node) (d : Draft) : Draft × Plan :=
  match t.child? .name with
  | none => (d, stop)
  | some n =>
    let name := n.text
    let qualified := p.qualify name
    let isMethod := p.owner.isSome
    let exported := if isMethod then p.throughTrait || (p.ownerExported && isPublic t)
      else isPublic t
    let inner := { p with scope := some qualified, inFunction := true, mode := .plain }
    (d.declare ⟨name, qualified, if isMethod then .method else .function, t.line, t.endLine,
        exported, p.owner <|> p.modulePath, some (signature t)⟩,
      byField t fun
        | .parameters | .body => some inner
        | .returnType => some (inner.typed.within .typeName)
        | _ => none)

def enterItem (p : Place) (t : Node) (kind : SymbolKind) (d : Draft) : Draft × Plan :=
  match t.child? .name with
  | none => (d, stop)
  | some n =>
    let name := n.text
    let exported := isPublic t
    let qualified := p.qualify name
    let inner := { p with scope := some qualified, mode := .plain }
    (d.declare ⟨name, qualified, kind, t.line, t.endLine, exported, p.modulePath, none⟩,
      if kind = .trait then
        byField t fun
          | .body => some { inner with
              owner := some name, ownerExported := exported, throughTrait := exported }
          | _ => none
      else fun c _ =>
        if !c.isNamed || c.inPart .name then none
        else
          let place := if c.inPart .value then inner else inner.typed
          some { place with parent := t.kind?, beforeGroup := false })

/-- The name of the type that a block of members is for. -/
def ownerName? (t : Node) : Option String :=
  Syntax.Tree.walk enterOwner () t none
where
  enterOwner : Syntax.Tree.Enter Kind Unit (Option String) := fun _ t found =>
    match t.kind? with
    | some .typeIdentifier => (some t.text, fun _ _ => none)
    | some .scopedTypeIdentifier => ((t.child? .name).map (·.text), fun _ _ => none)
    | some .genericType | some .referenceType =>
      (found, fun c _ => if c.inPart .type then some () else none)
    | _ => (found, fun _ _ => none)

def enterImpl (p : Place) (t : Node) (d : Draft) : Draft × Plan :=
  match (t.child? .type).bind ownerName? with
  | none => (d, stop)
  | some owner =>
    let declared := d.declared? fun x => x.name = owner && x.parent.isNone
    let inner := { p with
      owner := some owner
      ownerExported := (declared.map (·.isExported)).getD true
      throughTrait := (t.child? .trait).isSome
      scope := some owner
      mode := .plain }
    (d, byField t fun
      | .trait => some (inner.typed.within .typeName)
      | .body => some inner
      | _ => none)

/-- The name of a type. The type of the enclosing block stands for itself. -/
def enterTypeName (p : Place) (t : Node) (d : Draft) : Draft :=
  match t.kind? with
  | some .typeIdentifier =>
    let name := if t.text = "Self" then p.owner.getD t.text else t.text
    refer p name none t.line false d
  | some .scopedTypeIdentifier =>
    match t.child? .path with
    | some q => refer p (lastSegment q.text) ((t.child? .name).map (·.text)) t.line false d
    | none => d
  | _ => d

def enterScoped (p : Place) (t : Node) (isCall : Bool) (d : Draft) : Draft :=
  let member := (t.child? .name).map (·.text)
  match t.child? .path with
  | some q =>
    let owner := lastSegment q.text
    let owner := if owner = "Self" || owner = "self" then p.owner.getD owner else owner
    refer p.runtime owner member t.line isCall d
  | none =>
    match member with
    | some m => refer p.runtime m none t.line isCall d
    | none => d

def enterField (p : Place) (t : Node) (isCall : Bool) (d : Draft) : Draft × Plan :=
  let field := (t.child? .field).map (·.text)
  match t.child? .value with
  | none => (d, stop)
  | some v =>
    match v.kind? with
    | some .selfValue =>
      (match p.owner, field with
        | some owner, some f => refer p.runtime owner (some f) t.line isCall d
        | _, _ => d, stop)
    | some .identifier => (refer p.runtime v.text field t.line isCall d, stop)
    | _ => (d, byField t fun
      | .value => some (p.within .plain)
      | _ => none)

def enterPlain (p : Place) (t : Node) (d : Draft) : Draft × Plan :=
  match t.kind? with
  | none => (d, stop)
  | some k =>
    let item (kind : SymbolKind) := if p.inFunction then (d, inward t p) else enterItem p t kind d
    match k with
    | .useDeclaration => (d.addImports (useImports t), stop)
    | .externCrateDeclaration | .lineComment | .blockComment | .stringLiteral
    | .rawStringLiteral | .charLiteral | .integerLiteral | .attributeItem
    | .innerAttributeItem => (d, stop)
    | .modItem => enterModule p t d
    | .functionItem | .functionSignatureItem =>
      if p.inFunction then (d, inward t p) else enterFunction p t d
    | .structItem | .unionItem => item .struct
    | .enumItem => item .enum
    | .traitItem => item .trait
    | .typeItem => item .typeAlias
    | .constItem | .staticItem => item .constant
    | .implItem => if p.inFunction then (d, inward t p) else enterImpl p t d
    | .callExpression =>
      (d, byField t fun
        | .function => some (p.within (.callee true))
        | .arguments => some (p.within .plain)
        | _ => none)
    | .fieldExpression => enterField p t false d
    | .scopedIdentifier => (enterScoped p t false d, stop)
    | .structExpression =>
      (d, byField t fun
        | .name => some (p.runtime.within .typeName)
        | .body => some (p.within .plain)
        | _ => none)
    | .typeIdentifier | .scopedTypeIdentifier => (enterTypeName p.typed t d, stop)
    | .closureExpression => (d, inward t { p with inFunction := true })
    | .identifier =>
      (if isBinding p.parent t then d
        else refer p t.text none t.line (p.parent = some .tokenTree && p.beforeGroup) d, stop)
    | _ => (d, inward t p)

def enter : Syntax.Tree.Enter Kind Place Draft := fun p t d =>
  match p.mode with
  | .plain => enterPlain p t d
  | .inside => (d, inward t p)
  | .callee isCall =>
    match t.kind? with
    | some .identifier => (refer p.runtime t.text none t.line isCall d, stop)
    | some .scopedIdentifier => (enterScoped p t isCall d, stop)
    | some .fieldExpression => enterField p t isCall d
    | some .genericFunction =>
      (d, byField t fun
        | .function => some (p.within (.callee isCall))
        | .typeArguments => some (p.typed.within .inside)
        | _ => none)
    | _ => enterPlain p t d
  | .typeName =>
    match t.kind? with
    | some .typeIdentifier | some .scopedTypeIdentifier => (enterTypeName p t d, stop)
    | some .genericType =>
      (d, byField t fun
        | .type => some (p.within .typeName)
        | .typeArguments => some (p.typed.within .inside)
        | _ => none)
    | _ => enterPlain p t d

def outline? (source : String) : Option Outline :=
  (Syntax.Rust.grammar.parse? source).map fun t =>
    (Syntax.Tree.walk enter Place.top t Draft.empty).finish .rust

end DepAtlas.Outline.Rust
