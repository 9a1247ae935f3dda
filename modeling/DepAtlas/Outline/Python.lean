import DepAtlas.Outline.Draft
import DepAtlas.Syntax.PythonGrammar
import DepAtlas.Text.Quoted

/-! # Outlines of Python

A walk over the syntax tree. A name is public unless it starts with an underscore; a list of all
public names, where a module has one, decides instead.
-/

namespace DepAtlas.Outline.Python

open DepAtlas.Syntax.Python (Kind)

abbrev Node := Syntax.Tree Kind

/-- How a node is looked at. -/
inductive Mode where
  | plain
  /-- Only its children count. -/
  | inside
  /-- As what is called. -/
  | callee
  deriving DecidableEq, Repr

structure Place where
  owner : Option String
  scope : Option String
  inFunction : Bool
  inType : Bool
  /-- Inside a branch that only type checkers take. -/
  typeChecking : Bool
  mode : Mode
  parent : Option Kind
  deriving Repr

namespace Place

def top : Place := ⟨none, none, false, false, false, .plain, none⟩

def typed (p : Place) : Place := { p with inType := true }

def within (p : Place) (m : Mode) : Place := { p with mode := m }

end Place

abbrev Plan := Node → List Node → Option Place

def stop : Plan := fun _ _ => none

/-- Goes on to every construct below `t`. -/
def inward (t : Node) (p : Place) : Plan := fun c _ =>
  if c.isNamed then some { p with mode := .plain, parent := t.kind? } else none

/-- Goes on to the children whose part has a place. -/
def byField (t : Node) (f : Syntax.Field → Option Place) : Plan := fun c _ =>
  (c.field.bind f).map fun p => { p with parent := t.kind? }

def refer (p : Place) (name : String) (member : Option String) (line : Nat) (isCall : Bool)
    (d : Draft) : Draft :=
  d.refer ⟨p.scope, name, member, line, isCall, p.inType⟩

def isPublic (name : String) : Bool :=
  !name.startsWith "_" || (name.startsWith "__" && name.endsWith "__")

/-- Whether an identifier introduces a name rather than mentioning one. -/
def isBinding (parent : Option Kind) (t : Node) : Bool :=
  match parent with
  | none => false
  | some k =>
    match k with
    | .parameters | .lambdaParameters | .typedParameter | .listSplatPattern
    | .dictionarySplatPattern | .globalStatement | .nonlocalStatement | .patternList
    | .tuplePattern | .aliasedImport | .dottedName | .asPatternTarget => true
    | .defaultParameter | .typedDefaultParameter | .keywordArgument | .functionDefinition
    | .classDefinition => t.inPart .name
    | .assignment | .forStatement | .forInClause => t.inPart .left
    | _ => false

/-! ## Imports -/

def importKind (p : Place) : ImportKind := if p.typeChecking then .typeOnly else .plain

def firstSegment (path : String) : String :=
  String.ofList (path.toList.takeWhile (· ≠ '.'))

/-- What is imported and the name it gets, where a name is given. -/
def importedName (t : Node) : String × Option String :=
  if t.hasKind .aliasedImport then
    (((t.child? .name).map (·.text)).getD "", (t.child? .asName).map (·.text))
  else (t.text, none)

def moduleImports (p : Place) (t : Node) : List Import :=
  (t.childrenIn .name).map fun n =>
    let (path, asName) := importedName n
    ⟨path, importKind p, t.line, [⟨"*", asName.getD (firstSegment path), p.typeChecking, true⟩]⟩

/-- The imports of names from a module. Names from a package itself are its modules. -/
def nameImports (p : Place) (t : Node) : List Import :=
  match t.child? .moduleName with
  | none => []
  | some m =>
    let path := m.text
    let named : List Binding := (t.childrenIn .name).filterMap fun n =>
      let (imported, asName) := importedName n
      if imported.isEmpty then none
      else some ⟨imported, asName.getD imported, p.typeChecking, false⟩
    if path.toList.all (· = '.') then
      named.map fun b =>
        ⟨path ++ b.imported, importKind p, t.line, [{ b with isNamespace := true }]⟩
    else
      let all : List Binding :=
        if t.hasChild .wildcardImport then [⟨"*", "*", p.typeChecking, true⟩] else []
      [⟨path, importKind p, t.line, named ++ all⟩]

def firstString? (call : Node) : Option String :=
  match (call.child? .arguments).map (·.named) with
  | some (a :: _) => if a.hasKind .string then Text.unquote? a.text else none
  | _ => none

/-- The import that a call to one of the import functions makes. -/
def dynamicImport? (call f : Node) : Option Import :=
  let name := f.text
  let imports := match f.kind? with
    | some .identifier => name = "__import__" || name = "import_module"
    | some .attribute => name = "importlib.import_module"
    | _ => false
  if imports then (firstString? call).map fun s => ⟨s, .dynamic, call.line, []⟩ else none

/-! ## Signatures -/

def withoutStars (s : String) : String := Text.dropLeading (· = '*') s

def param? (t : Node) : Option Param :=
  let typeName := (t.child? .type).map (·.text)
  match t.kind? with
  | some .identifier => some ⟨t.text, none, false, false⟩
  | some .typedParameter =>
    match t.named with
    | [] => none
    | inner :: _ =>
      some ⟨withoutStars inner.text, typeName, false,
        inner.hasKind .listSplatPattern || inner.hasKind .dictionarySplatPattern⟩
  | some .defaultParameter | some .typedDefaultParameter =>
    some ⟨((t.child? .name).map (·.text)).getD "", typeName, true, false⟩
  | some .listSplatPattern | some .dictionarySplatPattern =>
    some ⟨withoutStars t.text, none, false, true⟩
  | _ => none

def isReceiver (name : String) : Bool := name = "self" || name = "cls"

/-- The parameters of a function; a method's receiver in first place is left out. -/
def params (isMethod : Bool) (list : Node) : List Param :=
  match list.named with
  | [] => []
  | first :: rest =>
    let head := match param? first with
      | some p => if isMethod && isReceiver p.name then [] else [p]
      | none => []
    head ++ rest.filterMap param?

def signature (isMethod : Bool) (t : Node) : Signature :=
  ⟨match t.child? .parameters with
    | some list => params isMethod list
    | none => [],
    (t.child? .returnType).map (·.text), t.hasToken "async"⟩

/-! ## The walk -/

def enterFunction (p : Place) (t : Node) (d : Draft) : Draft × Plan :=
  match t.child? .name with
  | none => (d, stop)
  | some n =>
    let name := n.text
    let qualified := match p.owner with
      | some owner => owner ++ "." ++ name
      | none => name
    let isMethod := p.owner.isSome
    let d' := if p.inFunction then d
      else d.declare ⟨name, qualified, if isMethod then .method else .function, t.line, t.endLine,
        isPublic name, p.owner, some (signature isMethod t)⟩
    let inner := { p with
      scope := if p.inFunction then p.scope else some qualified
      inFunction := true
      mode := .plain }
    (d', byField t fun
      | .parameters | .body => some inner
      | .returnType => some inner.typed
      | _ => none)

def enterClass (p : Place) (t : Node) (d : Draft) : Draft × Plan :=
  match t.child? .name with
  | none => (d, stop)
  | some n =>
    let name := n.text
    if p.inFunction || p.owner.isSome then
      (d, byField t fun
        | .body => some (p.within .plain)
        | _ => none)
    else
      let inner := { p with owner := some name, scope := some name, mode := .plain }
      (d.declare ⟨name, name, .classType, t.line, t.endLine, isPublic name, none, none⟩,
        byField t fun
          | .superclasses | .body => some inner
          | _ => none)

def isConstantName (name : String) : Bool :=
  name.toList.all fun c => c.isUpper || c.isDigit || c = '_'

/-- The variable that a statement at the top of a module assigns to. -/
def assignedVariables (t : Node) : List Declaration :=
  t.named.filterMap fun a =>
    if a.hasKind .assignment then
      (a.child? .left).bind fun left =>
        let name := left.text
        if left.hasKind .identifier && name ≠ "__all__" then
          some ⟨name, name, if isConstantName name then .constant else .varBinding, a.line,
            a.endLine, isPublic name, none, none⟩
        else none
    else none

def enterAttribute (p : Place) (t : Node) (isCall : Bool) (d : Draft) : Draft × Plan :=
  let member := (t.child? .attribute).map (·.text)
  match t.child? .object with
  | none => (d, stop)
  | some o =>
    if o.hasKind .identifier then
      if isReceiver o.text then
        (match p.owner, member with
          | some owner, some m => refer p owner (some m) t.line isCall d
          | _, _ => d, stop)
      else (refer p o.text member t.line isCall d, stop)
    else (d, byField t fun
      | .object => some (p.within .plain)
      | _ => none)

def enterCall (p : Place) (t : Node) (d : Draft) : Draft × Plan :=
  let d' := match (t.child? .function).bind (dynamicImport? t) with
    | some i => d.addImport i
    | none => d
  (d', byField t fun
    | .function => some (p.within .callee)
    | .arguments => some (p.within .plain)
    | _ => none)

/-- Whether a branch is taken by type checkers only. -/
def isTypeCheckingGuard (t : Node) : Bool :=
  match t.child? .condition with
  | some c => c.text.endsWith "TYPE_CHECKING"
  | none => false

def enterPlain (p : Place) (t : Node) (d : Draft) : Draft × Plan :=
  match t.kind? with
  | none => (d, stop)
  | some k =>
    match k with
    | .importStatement => (d.addImports (moduleImports p t), stop)
    | .importFromStatement => (d.addImports (nameImports p t), stop)
    | .futureImportStatement | .comment | .string | .number => (d, stop)
    | .ifStatement =>
      if isTypeCheckingGuard t then
        (d, byField t fun
          | .consequence => some { p with typeChecking := true, mode := .plain }
          | _ => none)
      else (d, inward t p)
    | .decoratedDefinition =>
      (d, fun c _ =>
        if c.hasKind .decorator then some { p with mode := .inside, parent := t.kind? }
        else if c.inPart .definition then some { p with mode := .plain, parent := t.kind? }
        else none)
    | .functionDefinition => enterFunction p t d
    | .classDefinition => enterClass p t d
    | .expressionStatement =>
      (if p.scope.isNone && p.owner.isNone then (assignedVariables t).foldl Draft.declare d else d,
        inward t p)
    | .call => enterCall p t d
    | .attribute => enterAttribute p t false d
    | .type => (d, inward t p.typed)
    | .identifier =>
      (if isBinding p.parent t then d else refer p t.text none t.line false d, stop)
    | _ => (d, inward t p)

def enter : Syntax.Tree.Enter Kind Place Draft := fun p t d =>
  match p.mode with
  | .plain => enterPlain p t d
  | .inside => (d, inward t p)
  | .callee =>
    match t.kind? with
    | some .identifier => (refer p t.text none t.line true d, stop)
    | some .attribute => enterAttribute p t true d
    | _ => enterPlain p t d

/-- The assignment of a module's list of public names, if the statement is one. -/
def listing? (statement : Node) : Option Node :=
  if statement.hasKind .expressionStatement then
    statement.named.head?.filter fun a =>
      a.hasKind .assignment && (a.child? .left).map (·.text) = some "__all__"
  else none

/-- The names that a module lists as its public ones. -/
def listedNames? (root : Node) : Option (List String) :=
  ((root.named.findSome? listing?).bind (·.child? .right)).map fun right =>
    (right.named.filter (·.hasKind .string)).filterMap fun t => Text.unquote? t.text

def outline? (source : String) : Option Outline :=
  (Syntax.Python.grammar.parse? source).map fun t =>
    let o := (Syntax.Tree.walk enter Place.top t Draft.empty).finish .python
    match listedNames? t with
    | some names => o.markExported fun x => names.contains x.name
    | none => o

end DepAtlas.Outline.Python
