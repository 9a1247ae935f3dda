import DepAtlas.Outline.Read
import DepAtlas.Outline.Write

/-! # Symbols

A symbol is a declaration together with the file that holds it. It is known by an id, made of the path
of the file and the qualified name.
-/

namespace DepAtlas

/-- The name of what stands in a file outside all declarations. -/
def moduleName : String := "<module>"

/-- The id of a symbol. -/
def symbolId (file qualifiedName : String) : String := file ++ ":" ++ qualifiedName

/-- The file and the qualified name of an id, split at its last colon; both must be there. -/
def splitSymbolId? (id : String) : Option (String × String) :=
  if id.toList.contains ':' then
    let name := (id.toList.reverse.takeWhile (· ≠ ':')).reverse
    let file := id.toList.take (id.length - name.length - 1)
    if file = [] ∨ name = [] then none else some (String.ofList file, String.ofList name)
  else none

structure Symbol where
  id : String
  name : String
  qualifiedName : String
  kind : SymbolKind
  file : String
  line : Nat
  endLine : Nat
  isExported : Bool
  parentId : Option String
  signature : Option Signature
  deriving DecidableEq, Repr

namespace Symbol

def ofDeclaration (file : String) (d : Declaration) : Symbol where
  id := symbolId file d.qualifiedName
  name := d.name
  qualifiedName := d.qualifiedName
  kind := d.kind
  file := file
  line := d.line
  endLine := d.endLine
  isExported := d.isExported
  parentId := d.parent.map (symbolId file)
  signature := d.signature

/-- A symbol is asked for by its bare or its qualified name. -/
def hasName (s : Symbol) (name : String) : Bool := s.name = name || s.qualifiedName = name

def toJson (s : Symbol) : Json :=
  .objectOf [
    some ("id", .str s.id), some ("name", .str s.name),
    some ("qualifiedName", .str s.qualifiedName), some ("kind", .str s.kind.name),
    some ("filePath", .str s.file), some ("line", .nat s.line), some ("endLine", .nat s.endLine),
    some ("isExported", .bool s.isExported), Json.field? "parentSymbolId" s.parentId .str,
    Json.field? "signature" s.signature Signature.toJson]

end Symbol

/-- A use of one symbol in another. -/
structure SymbolEdge where
  source : String
  target : String
  targetFile : String
  typeOnly : Bool
  line : Nat
  deriving DecidableEq, Repr

namespace SymbolEdge

open Json.Decode

def toJson (e : SymbolEdge) : Json :=
  .object [("sourceSymbolId", .str e.source), ("targetSymbolId", .str e.target),
    ("targetFilePath", .str e.targetFile), ("isTypeOnly", .bool e.typeOnly), ("line", .nat e.line)]

def shape : Shape :=
  ⟨"struct SymbolDependency",
    [.of "sourceSymbolId" text, .of "targetSymbolId" text, .of "targetFilePath" text,
      .of "isTypeOnly" flag, .of "line" count], false⟩

def ofJson : Json.Decode SymbolEdge := fun j => do
  let fields ← shape.read .direct j
  return ⟨← fields.required "sourceSymbolId" text, ← fields.required "targetSymbolId" text,
    ← fields.required "targetFilePath" text, ← fields.required "isTypeOnly" flag,
    ← fields.required "line" count⟩

end SymbolEdge

end DepAtlas
