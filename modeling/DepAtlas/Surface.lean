import DepAtlas.Outline.Parsing
import DepAtlas.Text.Order

/-! # Changes of a public surface

The public surface of a source is what it exports. Two versions are compared symbol by symbol, by
qualified name, and each change is classified by how much it may break.
-/

namespace DepAtlas.Surface

inductive Severity where
  | error
  | warning
  | info
  deriving DecidableEq, Repr

def Severity.name : Severity → String
  | error => "error"
  | warning => "warning"
  | info => "info"

/-- What has changed about a symbol. -/
inductive Detail where
  | exportRemoved (kind : SymbolKind)
  | visibilityReduced
  | kindChanged (before after : SymbolKind)
  | parameterRemoved (name : String)
  | requiredParameterAdded (name : String)
  | parameterBecameRequired (name : String)
  | parameterTypeChanged (name before after : String)
  | returnTypeChanged (before after : String)
  | asyncChanged (now : Bool)
  | optionalParameterAdded (name : String)
  | exportAdded
  deriving DecidableEq, Repr

namespace Detail

def name : Detail → String
  | exportRemoved _ => "export_removed"
  | visibilityReduced => "visibility_reduced"
  | kindChanged _ _ => "kind_changed"
  | parameterRemoved _ => "parameter_removed"
  | requiredParameterAdded _ => "required_parameter_added"
  | parameterBecameRequired _ => "parameter_became_required"
  | parameterTypeChanged _ _ _ => "parameter_type_changed"
  | returnTypeChanged _ _ => "return_type_changed"
  | asyncChanged _ => "async_changed"
  | optionalParameterAdded _ => "optional_parameter_added"
  | exportAdded => "export_added"

def severity : Detail → Severity
  | exportRemoved _ | visibilityReduced | kindChanged _ _ | parameterRemoved _
  | requiredParameterAdded _ | parameterBecameRequired _ => .error
  | parameterTypeChanged _ _ _ | returnTypeChanged _ _ | asyncChanged _ => .warning
  | optionalParameterAdded _ | exportAdded => .info

/-- Whether users of the symbol may break. -/
def isBreaking (d : Detail) : Bool := d.severity ≠ .info

def quoted (s : String) : String := "`" ++ s ++ "`"

def message (symbol : String) : Detail → String
  | exportRemoved kind => "exported " ++ kind.name ++ " " ++ quoted symbol ++ " was removed"
  | visibilityReduced => quoted symbol ++ " is no longer exported"
  | kindChanged before after =>
    quoted symbol ++ " changed from " ++ before.name ++ " to " ++ after.name
  | parameterRemoved name => "parameter " ++ quoted name ++ " of " ++ quoted symbol ++ " was removed"
  | requiredParameterAdded name =>
    "required parameter " ++ quoted name ++ " added to " ++ quoted symbol
  | parameterBecameRequired name =>
    "parameter " ++ quoted name ++ " of " ++ quoted symbol ++ " is now required"
  | parameterTypeChanged name before after =>
    "parameter " ++ quoted name ++ " of " ++ quoted symbol ++ " changed type from " ++
      quoted before ++ " to " ++ quoted after
  | returnTypeChanged before after =>
    "return type of " ++ quoted symbol ++ " changed from " ++ quoted before ++ " to " ++ quoted after
  | asyncChanged now => quoted symbol ++ " is " ++ (if now then "now" else "no longer") ++ " async"
  | optionalParameterAdded name =>
    "optional parameter " ++ quoted name ++ " added to " ++ quoted symbol
  | exportAdded => "new export " ++ quoted symbol

end Detail

structure Change where
  symbol : String
  detail : Detail
  line : Nat
  deriving DecidableEq, Repr

/-- A type as it is compared: blanks and leading colons do not count. -/
def plainType (s : String) : String :=
  String.ofList ((s.toList.dropWhile (· = ':')).filter (!Text.isBlank ·))

/-- Whether a call may leave a parameter out. -/
def isOptional (p : Param) : Bool := p.optional || p.variadic

/-- What has changed about a parameter that both versions have. -/
def parameterDetails (before after : Param) : List Detail :=
  (if isOptional before && !isOptional after then [.parameterBecameRequired after.name] else []) ++
    match before.typeName, after.typeName with
    | some old, some new =>
      if plainType old = plainType new then [] else [.parameterTypeChanged after.name old new]
    | _, _ => []

/-- What has changed about parameters, by their positions. -/
def parametersDetails : List Param → List Param → List Detail
  | [], added => added.map fun p =>
    if isOptional p then .optionalParameterAdded p.name else .requiredParameterAdded p.name
  | removed, [] => removed.map fun p => .parameterRemoved p.name
  | before :: befores, after :: afters =>
    parameterDetails before after ++ parametersDetails befores afters

def signatureDetails (before after : Signature) : List Detail :=
  parametersDetails before.params after.params ++
    (match before.returnType, after.returnType with
      | some old, some new =>
        if plainType old = plainType new then [] else [.returnTypeChanged old new]
      | _, _ => []) ++
    if before.isAsync = after.isAsync then [] else [.asyncChanged after.isAsync]

/-- The first declaration of a qualified name. -/
def first? (o : Outline) (name : String) : Option Declaration :=
  o.declarations.find? (·.qualifiedName = name)

/-- The first declarations of all qualified names, in the order of the names. -/
def firsts (o : Outline) : List Declaration :=
  (Text.sortedOnce (o.declarations.map (·.qualifiedName))).filterMap (first? o)

/-- What has become of an exported declaration, and the line to look at. -/
def fate (before : Declaration) : Option Declaration → List Detail × Nat
  | none => ([.exportRemoved before.kind], before.line)
  | some after =>
    (if !after.isExported then [.visibilityReduced]
      else if before.kind ≠ after.kind then [.kindChanged before.kind after.kind]
      else
        match before.signature, after.signature with
        | some old, some new => signatureDetails old new
        | _, _ => [], after.line)

/-- Whether a report that is about one name covers a declaration: the symbol or its members. -/
def covers (about : Option String) (d : Declaration) : Bool :=
  match about with
  | none => true
  | some name => d.name = name || d.qualifiedName = name || d.parent = some name

/-- The changes from one version to another, of one symbol or of all. -/
def changes (old new : Outline) (about : Option String) : List Change :=
  ((firsts old).filter fun d => d.isExported && covers about d).flatMap (fun d =>
    let (details, line) := fate d (first? new d.qualifiedName)
    details.map fun detail => ⟨d.qualifiedName, detail, line⟩) ++
  ((firsts new).filter fun d => d.isExported && covers about d &&
    !((first? old d.qualifiedName).any (·.isExported))).map fun d =>
      ⟨d.qualifiedName, .exportAdded, d.line⟩

structure Report where
  path : String
  changes : List Change
  deriving Repr

namespace Report

def breaking (r : Report) : Nat := r.changes.countP (·.detail.isBreaking)

def nonBreaking (r : Report) : Nat := r.changes.countP (!·.detail.isBreaking)

def errors (r : Report) : Nat := r.changes.countP (·.detail.severity = .error)

def warnings (r : Report) : Nat := r.changes.countP (·.detail.severity = .warning)

def toJson (r : Report) : Json :=
  .object [("filePath", .str r.path), ("hasBreakingChanges", .bool (0 < r.breaking)),
    ("changes", .arr (r.changes.map fun c => .object [
      ("symbol", .str c.symbol), ("change", .str c.detail.name),
      ("breaking", .bool c.detail.isBreaking), ("severity", .str c.detail.severity.name),
      ("line", .nat c.line), ("message", .str (c.detail.message c.symbol))])),
    ("summary", .object [("breaking", .nat r.breaking), ("nonBreaking", .nat r.nonBreaking),
      ("errors", .nat r.errors), ("warnings", .nat r.warnings)])]

end Report

/-- Compares two versions of a source. -/
def compare (s : Parsing) (closed : Bool) (path old new : String) (about : Option String) :
    Except ParseError Report := do
  let before ← s.outlineIn closed path old
  let after ← s.outlineIn closed path new
  return ⟨path, changes before after about⟩

end DepAtlas.Surface
