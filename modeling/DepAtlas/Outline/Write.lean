import DepAtlas.Json.Basic
import DepAtlas.Outline.Basic

/-! # Outlines as JSON -/

namespace DepAtlas

def Binding.toJson (b : Binding) : Json :=
  .object [("imported", .str b.imported), ("local", .str b.localName),
    ("typeOnly", .bool b.typeOnly), ("namespace", .bool b.isNamespace)]

def Import.toJson (i : Import) : Json :=
  .object [("module", .str i.specifier), ("importType", .str i.kind.name), ("line", .nat i.line),
    ("bindings", .arr (i.bindings.map Binding.toJson))]

def Param.toJson (p : Param) : Json :=
  .objectOf [some ("name", .str p.name), Json.field? "type" p.typeName .str,
    some ("optional", .bool p.optional), some ("variadic", .bool p.variadic)]

def Signature.toJson (s : Signature) : Json :=
  .objectOf [some ("params", .arr (s.params.map Param.toJson)),
    Json.field? "returnType" s.returnType .str, some ("isAsync", .bool s.isAsync)]

def Declaration.toJson (d : Declaration) : Json :=
  .objectOf [some ("name", .str d.name), some ("qualifiedName", .str d.qualifiedName),
    some ("kind", .str d.kind.name), some ("line", .nat d.line), some ("endLine", .nat d.endLine),
    some ("isExported", .bool d.isExported), Json.field? "parent" d.parent .str,
    Json.field? "signature" d.signature Signature.toJson]

def Reference.toJson (r : Reference) : Json :=
  .objectOf [Json.field? "from" r.origin .str, some ("name", .str r.name),
    Json.field? "member" r.member .str, some ("line", .nat r.line),
    some ("isCall", .bool r.isCall), some ("typeOnly", .bool r.typeOnly)]

def Outline.toJson (o : Outline) : Json :=
  .object [("language", .str o.language.name), ("imports", .arr (o.imports.map Import.toJson)),
    ("symbols", .arr (o.declarations.map Declaration.toJson)),
    ("references", .arr (o.references.map Reference.toJson))]

end DepAtlas
