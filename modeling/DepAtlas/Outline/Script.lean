import DepAtlas.Outline.Draft
import DepAtlas.Syntax.ScriptGrammar
import DepAtlas.Text.Quoted

/-! # Outlines of JavaScript and TypeScript

A walk over the syntax tree. Functions, classes and variables are declared where no function
encloses them; names are mentioned wherever they do not introduce a binding.
-/

namespace DepAtlas.Outline.Script

open DepAtlas.Syntax.Script (Kind Dialect)

abbrev Node := Syntax.Tree Kind

/-- How a node is looked at. -/
inductive Mode where
  | plain
  /-- Only its children count. -/
  | inside
  /-- As what is called or accessed. -/
  | callee (isCall : Bool)
  /-- Only its parameters, return type and body count. -/
  | functionParts
  /-- As the body of a class. -/
  | classBody (owner : String) (exported : Bool)
  | classMember (owner : String) (exported : Bool)
  | declarator (isConst : Bool)
  deriving DecidableEq, Repr

structure Place where
  owner : Option String
  scope : Option String
  exported : Bool
  inFunction : Bool
  inType : Bool
  mode : Mode
  parent : Option Kind
  deriving Repr

namespace Place

def top : Place := ⟨none, none, false, false, false, .plain, none⟩

def typed (p : Place) : Place := { p with inType := true }

def within (p : Place) (m : Mode) : Place := { p with mode := m }

end Place

abbrev Plan := Node → List Node → Option Place

/-- Goes on to no child. -/
def stop : Plan := fun _ _ => none

/-- Goes on to every construct below `t`. -/
def inward (t : Node) (p : Place) : Plan := fun c _ =>
  if c.isNamed then some { p with mode := .plain, parent := t.kind? } else none

/-- Goes on to the children whose part has a place. -/
def byField (t : Node) (f : Syntax.Field → Option Place) : Plan := fun c _ =>
  (c.field.bind f).map fun p => { p with parent := t.kind? }

def refer (p : Place) (name : String) (member : Option String) (line : Nat) (isCall : Bool)
    (d : Draft) : Draft :=
  d.refer ⟨p.scope, name, member, line, isCall, p.inType⟩

/-- Whether an identifier introduces a name rather than mentioning one. -/
def isBinding (parent : Option Kind) (t : Node) : Bool :=
  match parent with
  | none => false
  | some k =>
    match k with
    | .variableDeclarator => t.inPart .name
    | .requiredParameter | .optionalParameter => t.inPart .pattern
    | .arrowFunction => t.inPart .parameter
    | .assignmentPattern => t.inPart .left
    | .functionDeclaration | .functionExpression | .generatorFunctionDeclaration
    | .classDeclaration | .classExpression | .methodDefinition => t.inPart .name
    | .catchClause => t.inPart .parameter
    | .formalParameters | .restPattern | .arrayPattern | .labeledStatement => true
    | _ => false

def isFunctionValue (t : Node) : Bool :=
  match t.kind? with
  | some .arrowFunction | some .functionExpression | some .generatorFunction => true
  | _ => false

/-! ## Imports and exports -/

/-- A name as it is written, or what stands between its quotes. -/
def specifierName (t : Node) : String := (Text.unquote? t.text).getD t.text

def wholeModule (localName : String) (typeOnly : Bool) : Binding :=
  ⟨"*", localName, typeOnly, true⟩

def isTypeMarked (t : Node) : Bool := t.hasToken "type" || t.hasToken "typeof"

def specifierBinding? (typeOnly : Bool) (t : Node) : Option Binding :=
  if t.hasKind .importSpecifier then
    (t.child? .name).map fun n =>
      let imported := specifierName n
      let localName := ((t.child? .asName).map (·.text)).getD imported
      ⟨imported, localName, typeOnly || isTypeMarked t, false⟩
  else none

def clauseBindings (typeOnly : Bool) (clause : Node) : List Binding :=
  clause.named.flatMap fun c =>
    match c.kind? with
    | some .identifier => [⟨"default", c.text, typeOnly, false⟩]
    | some .namespaceImport =>
      match c.namedOf? .identifier with
      | some l => [wholeModule l.text typeOnly]
      | none => []
    | some .namedImports => c.named.filterMap (specifierBinding? typeOnly)
    | _ => []

def sourceOf? (t : Node) : Option String :=
  (t.child? .source).bind fun n => Text.unquote? n.text

def requireBindings (clause : Node) : List Binding :=
  match clause.namedOf? .identifier with
  | some l => [wholeModule l.text false]
  | none => []

def importOf? (t : Node) : Option Import :=
  let typeOnly := isTypeMarked t
  let clause := t.namedOf? .importRequireClause
  let bindings := t.named.flatMap fun c =>
    match c.kind? with
    | some .importClause => clauseBindings typeOnly c
    | some .importRequireClause => requireBindings c
    | _ => []
  let kind := if clause.isSome then ImportKind.required else .plain
  (sourceOf? t <|> clause.bind sourceOf?).map fun specifier =>
    ⟨specifier,
      if typeOnly || (!bindings.isEmpty && bindings.all (·.typeOnly)) then .typeOnly else kind,
      t.line, bindings⟩

def exportBindings (typeOnly : Bool) (clause : Node) : List Binding :=
  clause.named.filterMap fun t =>
    if t.hasKind .exportSpecifier then
      (t.child? .name).map fun n =>
        let imported := specifierName n
        let localName := ((t.child? .asName).map specifierName).getD imported
        ⟨imported, localName, typeOnly || t.hasToken "type", false⟩
    else none

def reExport (t : Node) (specifier : String) : Import :=
  let typeOnly := t.hasToken "type"
  let bindings := t.named.flatMap fun c =>
    match c.kind? with
    | some .exportClause => exportBindings typeOnly c
    | some .namespaceExport =>
      match c.named with
      | l :: _ => [wholeModule (specifierName l) typeOnly]
      | [] => []
    | _ => []
  ⟨specifier, if typeOnly then .typeOnly else .reExport, t.line,
    if bindings.isEmpty then [wholeModule "*" typeOnly] else bindings⟩

def enterExport (p : Place) (t : Node) (d : Draft) : Draft × Plan :=
  match t.child? .source with
  | some s =>
    match Text.unquote? s.text with
    | some specifier => (d.addImport (reExport t specifier), stop)
    | none => (d, stop)
  | none =>
    if (t.child? .declaration).isSome then
      (d, byField t fun
        | .declaration => some { p with exported := true, mode := .plain }
        | _ => none)
    else
      match t.child? .value with
      | some v =>
        (if v.hasKind .identifier then d.addExport v.text else d,
          byField t fun
            | .value => some (p.within .plain)
            | _ => none)
      | none =>
        let names := (t.named.filter (·.hasKind .exportClause)).flatMap (exportBindings false)
        (names.foldl (fun d b => d.addExport b.imported) d, stop)

/-- The name that an assignment to the exports object exports, or those of an object assigned to
the whole of it. -/
def assignedExports (t : Node) : List String :=
  match t.child? .left, t.child? .right with
  | some left, some right =>
    let target := left.text
    match Text.stripOpening? "exports." target <|> Text.stripOpening? "module.exports." target with
    | some name => [name]
    | none =>
      if target ≠ "module.exports" then []
      else
        match right.kind? with
        | some .identifier => [right.text]
        | some .object =>
          right.named.filterMap fun e =>
            match e.kind? with
            | some .shorthandPropertyIdentifier => some e.text
            | some .pair => (e.child? .key).map (·.text)
            | _ => none
        | _ => []
  | _, _ => []

/-- The text of the first argument, if it is a string without holes. -/
def firstString? (arguments : Node) : Option String :=
  match arguments.named with
  | [] => none
  | a :: _ =>
    match a.kind? with
    | some .string => Text.unquote? a.text
    | some .templateString =>
      if a.hasChild .templateSubstitution then none else Text.unquote? a.text
    | _ => none

def argumentString? (t : Node) : Option String := (t.child? .arguments).bind firstString?

def isRequire (f : Node) : Bool := f.hasKind .identifier && f.text = "require"

/-- The import of a binding to a required module. -/
def requireImport? (value target : Node) : Option Import := do
  if !value.hasKind .callExpression then none
  else
    let f ← value.child? .function
    if !isRequire f then none
    else
      let specifier ← argumentString? value
      let bindings := match target.kind? with
        | some .identifier => [wholeModule target.text false]
        | some .objectPattern =>
          target.named.filterMap fun e =>
            match e.kind? with
            | some .shorthandPropertyIdentifierPattern => some ⟨e.text, e.text, false, false⟩
            | some .pairPattern =>
              match e.child? .key, e.child? .value with
              | some k, some v => some ⟨k.text, v.text, false, false⟩
              | _, _ => none
            | _ => none
        | _ => []
      some ⟨specifier, .required, value.line, bindings⟩

/-! ## Signatures -/

/-- A type as written, without the colon before it. -/
def annotated (t : Node) : String := Text.trim (Text.dropLeading (· = ':') t.text)

/-- A name without the dots that spread it. -/
def withoutSpread (s : String) : String :=
  go s.toList.length s.toList
where
  go : Nat → List Char → String
    | n + 1, '.' :: '.' :: '.' :: cs => go n cs
    | _, cs => String.ofList cs

def param? (t : Node) : Option Param :=
  match t.kind? with
  | some .requiredParameter | some .optionalParameter =>
    (t.child? .pattern).bind fun q =>
      let name := withoutSpread q.text
      if name = "this" then none
      else some ⟨name, (t.child? .type).map annotated,
        t.hasKind .optionalParameter || (t.child? .value).isSome, q.hasKind .restPattern⟩
  | some .identifier | some .objectPattern | some .arrayPattern =>
    some ⟨t.text, none, false, false⟩
  | some .assignmentPattern => some ⟨((t.child? .left).map (·.text)).getD "", none, true, false⟩
  | some .restPattern => some ⟨withoutSpread t.text, none, false, true⟩
  | _ => none

def signature (t : Node) : Signature :=
  let params := match t.child? .parameters with
    | some l => l.named.filterMap param?
    | none =>
      match t.child? .parameter with
      | some x => [⟨x.text, none, false, false⟩]
      | none => []
  ⟨params, (t.child? .returnType).map annotated, t.hasToken "async"⟩

/-! ## The walk -/

/-- Parameters, return type and body of a function, at the place `p`. -/
def functionParts (t : Node) (p : Place) : Plan :=
  byField t fun
    | .parameters | .parameter | .body => some (p.within .plain)
    | .returnType => some (p.typed.within .inside)
    | _ => none

def enterFunction (p : Place) (t : Node) (d : Draft) : Draft × Plan :=
  match t.child? .name with
  | none => (d, stop)
  | some n =>
    let name := n.text
    let inner := { p with scope := some name, exported := false, inFunction := true }
    (d.declare ⟨name, name, .function, t.line, t.endLine, p.exported, none, some (signature t)⟩,
      functionParts t inner)

def enterClass (p : Place) (t : Node) (d : Draft) : Draft × Plan :=
  match t.child? .name with
  | none => (d, stop)
  | some n =>
    let name := n.text
    let inner : Place := ⟨some name, some name, false, false, false, .plain, t.kind?⟩
    (d.declare ⟨name, name, .classType, t.line, t.endLine, p.exported, none, none⟩,
      fun c _ =>
        match c.kind? with
        | some .classHeritage => some inner
        | some .classBody => some (inner.within (.classBody name p.exported))
        | _ => none)

def isPrivate (member : Node) (name : String) : Bool :=
  name.startsWith "#" ||
    ((member.namedOf? .accessibilityModifier).map (·.text)) = some "private"

/-- Declares a method. Its parameters and body are those of `f`, which is the member itself or the
function that is its value. -/
def declareMethod (member f : Node) (name owner : String) (exported : Bool) (d : Draft) : Draft :=
  let s := signature f
  d.declare ⟨name, owner ++ "." ++ name, .method, member.line, member.endLine,
    exported && !isPrivate member name, some owner,
    some { s with isAsync := s.isAsync || member.hasToken "async" }⟩

def enterField (p : Place) (t : Node) (owner : String) (exported : Bool) (d : Draft) :
    Draft × Plan :=
  let value := t.child? .value
  match value.filter isFunctionValue, t.child? .name <|> t.child? .property with
  | some f, some n =>
    let name := n.text
    let inner := { p with scope := some (owner ++ "." ++ name), inFunction := true }
    (declareMethod t f name owner exported d,
      byField t fun
        | .value => some (inner.within .functionParts)
        | _ => none)
  | some _, none => (d, stop)
  | none, _ =>
    (d, byField t fun
      | .type => some (p.typed.within .inside)
      | .value => some (p.within .plain)
      | _ => none)

def enterTypeItem (p : Place) (t : Node) (kind : SymbolKind) (d : Draft) : Draft × Plan :=
  match t.child? .name with
  | none => (d, stop)
  | some n =>
    let name := n.text
    let d' := if p.inFunction then d
      else d.declare ⟨name, name, kind, t.line, t.endLine, p.exported, none, none⟩
    if kind = .enum then (d', stop)
    else
      let inner := { p with
        scope := if p.inFunction then p.scope else some name
        inType := true
        exported := false
        mode := .plain
        parent := t.kind? }
      (d', fun c _ => if c.isNamed && c.field ≠ some .name then some inner else none)

def enterVariables (p : Place) (t : Node) (d : Draft) : Draft × Plan :=
  let isConst := t.hasKind .lexicalDeclaration && t.text.startsWith "const"
  (d, fun c _ =>
    if c.hasKind .variableDeclarator then
      some { p with mode := .declarator isConst, parent := t.kind? }
    else none)

def enterDeclarator (p : Place) (t : Node) (isConst : Bool) (d : Draft) : Draft × Plan :=
  match t.child? .name with
  | none => (d, stop)
  | some n =>
    let value := t.child? .value
    match value.bind (requireImport? · n) with
    | some i => (d.addImport i, stop)
    | none =>
      if p.inFunction || !n.hasKind .identifier then
        (d, byField t fun
          | .type => some (p.typed.within .inside)
          | .value => some (p.within .plain)
          | _ => none)
      else
        let name := n.text
        let f := value.filter isFunctionValue
        let kind := if f.isSome then SymbolKind.function
          else if isConst then .constant else .varBinding
        let inner := { p with scope := some name, exported := false, inFunction := f.isSome }
        (d.declare ⟨name, name, kind, t.line, t.endLine, p.exported, none, f.map signature⟩,
          byField t fun
            | .type => some (inner.typed.within .inside)
            | .value => some (inner.within (if f.isSome then .functionParts else .plain))
            | _ => none)

def enterCall (p : Place) (t : Node) (d : Draft) : Draft × Plan :=
  match t.child? .function with
  | none => (d, inward t p)
  | some f =>
    let specifier := argumentString? t
    if f.hasKind .importCallee then
      (match specifier with
        | some s => d.addImport ⟨s, .dynamic, t.line, []⟩
        | none => d, stop)
    else
      match specifier.filter fun _ => isRequire f with
      | some s => (d.addImport ⟨s, .required, t.line, []⟩, stop)
      | none =>
        (d, byField t fun
          | .function => some (p.within (.callee true))
          | .typeArguments => some (p.typed.within .inside)
          | .arguments => some (p.within .plain)
          | _ => none)

/-- An access to a member: of a name, of the object a method runs on, or of anything else. -/
def enterMember (p : Place) (t : Node) (isCall : Bool) (d : Draft) : Draft × Plan :=
  let property := (t.child? .property).map (·.text)
  match t.child? .object with
  | none => (d, stop)
  | some o =>
    match o.kind? with
    | some .identifier => (refer p o.text property t.line isCall d, stop)
    | some .thisValue =>
      (match p.owner, property with
        | some owner, some x => refer p owner (some x) t.line isCall d
        | _, _ => d, stop)
    | _ => (d, byField t fun
      | .object => some (p.within .plain)
      | _ => none)

def enterPlain (p : Place) (t : Node) (d : Draft) : Draft × Plan :=
  match t.kind? with
  | none => (d, stop)
  | some k =>
    match k with
    | .importStatement => (match importOf? t with | some i => d.addImport i | none => d, stop)
    | .exportStatement => enterExport p t d
    | .functionDeclaration | .generatorFunctionDeclaration =>
      if p.inFunction then (d, inward t p) else enterFunction p t d
    | .functionSignature => if p.inFunction then (d, inward t p) else enterFunction p t d
    | .classDeclaration | .abstractClassDeclaration =>
      if p.inFunction then (d, inward t p) else enterClass p t d
    | .interfaceDeclaration => enterTypeItem p t .interface d
    | .typeAliasDeclaration => enterTypeItem p t .typeAlias d
    | .enumDeclaration => enterTypeItem p t .enum d
    | .lexicalDeclaration | .variableDeclaration => enterVariables p t d
    | .callExpression => enterCall p t d
    | .newExpression =>
      (d, byField t fun
        | .ctor => some (p.within (.callee true))
        | .arguments => some (p.within .plain)
        | _ => none)
    | .memberExpression => enterMember p t false d
    | .assignmentExpression =>
      ((assignedExports t).foldl Draft.addExport d, inward t p)
    | .identifier =>
      (if isBinding p.parent t then d else refer p t.text none t.line false d, stop)
    | .typeIdentifier => (refer p.typed t.text none t.line false d, stop)
    | .nestedTypeIdentifier =>
      (match t.child? .moduleName, t.child? .name with
        | some m, some n =>
          if m.hasKind .identifier then refer p.typed m.text (some n.text) t.line false d else d
        | _, _ => d, stop)
    | .typeAscription | .typeArguments | .constraint => (d, inward t p.typed)
    | .arrowFunction | .functionExpression | .generatorFunction =>
      (d, inward t { p with inFunction := true })
    | .string | .comment | .regex | .number | .propertyIdentifier
    | .shorthandPropertyIdentifierPattern | .statementIdentifier => (d, stop)
    | _ => (d, inward t p)

def enter : Syntax.Tree.Enter Kind Place Draft := fun p t d =>
  match p.mode with
  | .plain => enterPlain p t d
  | .inside => (d, inward t p)
  | .callee isCall =>
    match t.kind? with
    | some .identifier => (refer p t.text none t.line isCall d, stop)
    | some .memberExpression => enterMember p t isCall d
    | _ => enterPlain p t d
  | .functionParts => (d, functionParts t p)
  | .classBody owner exported =>
    (d, fun c _ =>
      if c.isNamed then
        some { p with mode := .classMember owner exported, parent := t.kind? }
      else none)
  | .classMember owner exported =>
    match t.kind? with
    | some .methodDefinition | some .methodSignature | some .abstractMethodSignature =>
      match t.child? .name with
      | none => (d, stop)
      | some n =>
        let inner := { p with scope := some (owner ++ "." ++ n.text), inFunction := true }
        (declareMethod t t n.text owner exported d, functionParts t inner)
    | some .publicFieldDefinition | some .fieldDefinition => enterField p t owner exported d
    | _ => enterPlain p t d
  | .declarator isConst => enterDeclarator p t isConst d

def dialect : Language → Dialect
  | .typeScript => .typeScript
  | .tsx => .tsx
  | _ => .javaScript

/-- The outline of a script. Top-level declarations also count as exported if their name is
exported anywhere in the file. -/
def outline? (language : Language) (source : String) : Option Outline :=
  ((Syntax.Script.grammar (dialect language)).parse? source).map fun t =>
    let d := Syntax.Tree.walk enter Place.top t Draft.empty
    (d.finish language).markExported fun x => x.isExported || d.exported.contains x.name

end DepAtlas.Outline.Script
