/-! # Outlines

What one source file brings in, declares and mentions, without regard to other files.
-/

namespace DepAtlas

inductive Language where
  | typeScript | tsx | javaScript | python | rust
  deriving DecidableEq, Repr, Inhabited

namespace Language

def name : Language → String
  | typeScript => "typescript"
  | tsx => "tsx"
  | javaScript => "javascript"
  | python => "python"
  | rust => "rust"

def all : List Language := [typeScript, tsx, javaScript, python, rust]

/-- JavaScript and what is compiled to it. -/
def isScript : Language → Bool
  | typeScript | tsx | javaScript => true
  | python | rust => false

def extensions : Language → List String
  | typeScript => ["ts", "mts", "cts"]
  | tsx => ["tsx"]
  | javaScript => ["js", "jsx", "mjs", "cjs"]
  | python => ["py", "pyi"]
  | rust => ["rs"]

def ofExtension? (extension : String) : Option Language :=
  all.find? fun l => extension ∈ l.extensions

end Language

/-- How a file brings in another one. -/
inductive ImportKind where
  | plain
  | dynamic
  | required
  | reExport
  | typeOnly
  /-- A child module that the file declares. -/
  | childModule
  deriving DecidableEq, Repr

namespace ImportKind

def name : ImportKind → String
  | plain => "static"
  | dynamic => "dynamic"
  | required => "require"
  | reExport => "re-export"
  | typeOnly => "type-only"
  | childModule => "module-decl"

def all : List ImportKind := [plain, dynamic, required, reExport, typeOnly, childModule]

def isTypeOnly (k : ImportKind) : Bool := k = typeOnly

end ImportKind

/-- One name that an import brings in. -/
structure Binding where
  /-- The name in the module it comes from; `*` stands for the whole module. -/
  imported : String
  /-- The name in the importing file. -/
  localName : String
  typeOnly : Bool
  isNamespace : Bool
  deriving DecidableEq, Repr

structure Import where
  specifier : String
  kind : ImportKind
  line : Nat
  bindings : List Binding
  deriving DecidableEq, Repr

inductive SymbolKind where
  | function | method | classType | interface | typeAlias | enum | varBinding | constant | struct
  | trait | moduleBlock
  deriving DecidableEq, Repr

namespace SymbolKind

def name : SymbolKind → String
  | function => "function"
  | method => "method"
  | classType => "class"
  | interface => "interface"
  | typeAlias => "type-alias"
  | enum => "enum"
  | varBinding => "variable"
  | constant => "constant"
  | struct => "struct"
  | trait => "trait"
  | moduleBlock => "module"

def all : List SymbolKind :=
  [function, method, classType, interface, typeAlias, enum, varBinding, constant, struct, trait,
    moduleBlock]

def isCallable : SymbolKind → Bool
  | function | method => true
  | _ => false

end SymbolKind

structure Param where
  name : String
  typeName : Option String
  optional : Bool
  variadic : Bool
  deriving DecidableEq, Repr

structure Signature where
  params : List Param
  returnType : Option String
  isAsync : Bool
  deriving DecidableEq, Repr

/-- The parameters that every call must give. -/
def Signature.requiredParams (s : Signature) : List Param :=
  s.params.filter fun p => !p.optional && !p.variadic

structure Declaration where
  name : String
  /-- The name with its owner in front, as in `Owner.member`. -/
  qualifiedName : String
  kind : SymbolKind
  line : Nat
  endLine : Nat
  isExported : Bool
  parent : Option String
  signature : Option Signature
  deriving DecidableEq, Repr

/-- A use of a name: a call, an access to a member or a mention in a type. -/
structure Reference where
  /-- The qualified name of the declaration around it, if there is one. -/
  origin : Option String
  name : String
  member : Option String
  line : Nat
  isCall : Bool
  typeOnly : Bool
  deriving DecidableEq, Repr

structure Outline where
  language : Language
  imports : List Import
  declarations : List Declaration
  references : List Reference
  deriving DecidableEq, Repr

def Outline.empty (language : Language) : Outline := ⟨language, [], [], []⟩

end DepAtlas
