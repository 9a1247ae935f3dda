import DepAtlas.Json.Decode
import DepAtlas.Outline.Basic

/-! # Outlines from JSON -/

namespace DepAtlas

open Json.Decode

/-- Line numbers and counts. -/
def Json.Decode.count : Json.Decode Nat := natural "usize"

def Language.ofJson : Json.Decode Language := oneOf .direct Language.all Language.name

def ImportKind.ofJson : Json.Decode ImportKind := oneOf .direct ImportKind.all ImportKind.name

def SymbolKind.ofJson : Json.Decode SymbolKind := oneOf .direct SymbolKind.all SymbolKind.name

def Binding.shape : Shape :=
  ⟨"struct ImportBinding",
    [.of "imported" text, .of "local" text, .of "typeOnly" flag, .of "namespace" flag], false⟩

def Binding.ofJson : Json.Decode Binding := fun j => do
  let fields ← Binding.shape.read .direct j
  return ⟨← fields.required "imported" text, ← fields.required "local" text,
    ← fields.required "typeOnly" flag, ← fields.required "namespace" flag⟩

def Import.shape : Shape :=
  ⟨"struct ParsedImport",
    [.of "module" text, .of "importType" ImportKind.ofJson, .of "line" count,
      .of "bindings" (list Binding.ofJson)], false⟩

def Import.ofJson : Json.Decode Import := fun j => do
  let fields ← Import.shape.read .direct j
  return ⟨← fields.required "module" text, ← fields.required "importType" ImportKind.ofJson,
    ← fields.required "line" count, ← fields.required "bindings" (list Binding.ofJson)⟩

def Param.shape : Shape :=
  ⟨"struct Param",
    [.of "name" text, .of "type" (option text), .of "optional" flag, .of "variadic" flag], false⟩

def Param.ofJson : Json.Decode Param := fun j => do
  let fields ← Param.shape.read .direct j
  return ⟨← fields.required "name" text, ← fields.optional "type" text,
    ← fields.required "optional" flag, ← fields.required "variadic" flag⟩

def Signature.shape : Shape :=
  ⟨"struct Signature",
    [.of "params" (list Param.ofJson), .of "returnType" (option text), .of "isAsync" flag], false⟩

def Signature.ofJson : Json.Decode Signature := fun j => do
  let fields ← Signature.shape.read .direct j
  return ⟨← fields.required "params" (list Param.ofJson), ← fields.optional "returnType" text,
    ← fields.required "isAsync" flag⟩

def Declaration.shape : Shape :=
  ⟨"struct ParsedSymbol",
    [.of "name" text, .of "qualifiedName" text, .of "kind" SymbolKind.ofJson, .of "line" count,
      .of "endLine" count, .of "isExported" flag, .of "parent" (option text),
      .of "signature" (option Signature.ofJson)], false⟩

def Declaration.ofJson : Json.Decode Declaration := fun j => do
  let fields ← Declaration.shape.read .direct j
  return {
    name := ← fields.required "name" text
    qualifiedName := ← fields.required "qualifiedName" text
    kind := ← fields.required "kind" SymbolKind.ofJson
    line := ← fields.required "line" count
    endLine := ← fields.required "endLine" count
    isExported := ← fields.required "isExported" flag
    parent := ← fields.optional "parent" text
    signature := ← fields.optional "signature" Signature.ofJson }

def Reference.shape : Shape :=
  ⟨"struct ParsedReference",
    [.of "from" (option text), .of "name" text, .of "member" (option text), .of "line" count,
      .of "isCall" flag, .of "typeOnly" flag], false⟩

def Reference.ofJson : Json.Decode Reference := fun j => do
  let fields ← Reference.shape.read .direct j
  return {
    origin := ← fields.optional "from" text
    name := ← fields.required "name" text
    member := ← fields.optional "member" text
    line := ← fields.required "line" count
    isCall := ← fields.required "isCall" flag
    typeOnly := ← fields.required "typeOnly" flag }

def Outline.shape : Shape :=
  ⟨"struct ParsedFile",
    [.of "language" Language.ofJson, .of "imports" (list Import.ofJson),
      .of "symbols" (list Declaration.ofJson), .of "references" (list Reference.ofJson)], false⟩

def Outline.ofJson : Json.Decode Outline := fun j => do
  let fields ← Outline.shape.read .direct j
  return ⟨← fields.required "language" Language.ofJson,
    ← fields.required "imports" (list Import.ofJson),
    ← fields.required "symbols" (list Declaration.ofJson),
    ← fields.required "references" (list Reference.ofJson)⟩

end DepAtlas
