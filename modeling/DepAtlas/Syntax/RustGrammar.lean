import DepAtlas.Syntax.RustTokens

/-! # Grammar of Rust -/

namespace DepAtlas.Syntax.Rust

inductive Kind where
  | program | shebang | lineComment | blockComment
  -- items
  | attributeItem | innerAttributeItem | modItem | foreignModItem | declarationList | structItem
  | unionItem | enumItem | enumVariantList | enumVariant | fieldDeclarationList
  | fieldDeclaration | orderedFieldDeclarationList | externCrateDeclaration | constItem
  | staticItem | typeItem | functionItem | functionSignatureItem | functionModifiers
  | externModifier | whereClause | wherePredicate | implItem | traitItem | associatedType
  | traitBounds | typeParameters | typeParameter | constParameter | lifetimeParameter
  | letDeclaration | useDeclaration | useList | scopedUseList | useAsClause | useWildcard
  | parameters | parameter | selfParameter | variadicParameter | visibilityModifier
  | macroDefinition | macroRule | macroInvocation | tokenTree | tokenTreePattern
  | tokenBindingPattern | tokenRepetition | tokenRepetitionPattern | fragmentSpecifier
  | metavariable
  -- statements and expressions
  | block | emptyStatement | expressionStatement | identifier | selfValue | superPath | cratePath
  | scopedIdentifier | genericFunction | fieldIdentifier | shorthandFieldIdentifier
  | stringLiteral | rawStringLiteral | charLiteral | integerLiteral | floatLiteral
  | booleanLiteral | negativeLiteral | unaryExpression | referenceExpression | tryExpression
  | binaryExpression | assignmentExpression | compoundAssignmentExpression | typeCastExpression
  | rangeExpression | callExpression | arguments | returnExpression | yieldExpression
  | arrayExpression | parenthesizedExpression | tupleExpression | unitExpression
  | structExpression | fieldInitializerList | fieldInitializer | shorthandFieldInitializer
  | baseFieldInitializer | ifExpression | elseClause | letCondition | letChain | matchExpression
  | matchBlock | matchArm | matchPattern | whileExpression | loopExpression | forExpression
  | constBlock | closureExpression | closureParameters | label | breakExpression
  | continueExpression | indexExpression | awaitExpression | fieldExpression | unsafeBlock
  | asyncBlock | genBlock | tryBlock | mutableSpecifier
  -- patterns
  | tuplePattern | tupleStructPattern | structPattern | fieldPattern | remainingFieldPattern
  | mutPattern | rangePattern | refPattern | slicePattern | capturedPattern | referencePattern
  | orPattern | genericPattern
  -- types
  | typeIdentifier | scopedTypeIdentifier | genericType | turbofishType | primitiveType | bracketedType
  | qualifiedType | lifetime | arrayType | forLifetimes | functionType | tupleType | unitType
  | typeArguments | typeBinding | referenceType | pointerType | neverType | abstractType
  | dynamicType | boundedType | removedTraitBound | higherRankedTraitBound
  deriving DecidableEq, Repr

/-- In a rule with `structs`, a path and braces may be a struct; in the head of a loop or a branch
the braces are its body. -/
inductive Rule where
  | program | statement | item | block | blockLike | visibility | attributes
  | functionHead | parameters | parameter | whereClause | typeParameters | bounds
  | type | plainType | typePath | typeArguments | path | usePath | useClause | lifetime
  | expression (structs : Bool) | range (structs : Bool) | binary (level : Nat) (structs : Bool)
  | unary (structs : Bool) | suffixed (structs : Bool) | primary (structs : Bool)
  | condition | pattern | singlePattern | arguments | fields | variantBody
  | tokens | delimited | macroTokens | macroTree | patternTokens | patternTree | macroCall

abbrev Expr := Peg Kind Token Rule

def op (s : String) : Expr := .token (.op s.toList)

def glyph (s : String) : Expr := .token (.glyph s.toList)

def word (s : String) : Expr := .token (.word s.toList)

def wordLeaf (k : Kind) (s : String) : Expr := .leaf k (.word s.toList)

def identifier : Expr := .leaf .identifier .identifier

def typeIdentifier : Expr := .leaf .typeIdentifier .identifier

def fieldIdentifier : Expr := .leaf .fieldIdentifier .identifier

def selfValue : Expr := wordLeaf .selfValue "self"

def mutable : Expr := wordLeaf .mutableSpecifier "mut"

def comma : Expr := op ","

def anyOp (ss : List String) : Expr := .oneOf (ss.map op)

def nothing : Expr := .absent .done

def onlyIf (b : Bool) (p : Expr) : Expr := if b then p else nothing

def commaList (p : Expr) : Expr := .opt (.sepBy1 p comma ++ .opt comma)

def braces (p : Expr) : Expr := op "\x7b" ++ p ++ op "\x7d"

def parens (p : Expr) : Expr := op "(" ++ p ++ op ")"

def literal : Expr :=
  .oneOf [
    .leaf .rawStringLiteral .rawString,
    .leaf .stringLiteral .string,
    .leaf .charLiteral .char,
    .leaf .floatLiteral .float,
    .leaf .integerLiteral .integer,
    wordLeaf .booleanLiteral "true",
    wordLeaf .booleanLiteral "false"]

def optVisibility : Expr := .opt (.rule .visibility)

def visibility : Expr :=
  .node .visibilityModifier
    (word "pub" ++ .opt (op "(" ++ .oneOf [selfValue, wordLeaf .superPath "super",
      wordLeaf .cratePath "crate", word "in" ++ .rule .usePath] ++ op ")"))

/-! ## Macros -/

/-- A token inside the tokens of a macro that is no bracket. -/
def looseToken : Expr :=
  .oneOf [
    literal,
    .leaf .identifier .looseIdentifier,
    mutable, selfValue,
    wordLeaf .superPath "super",
    wordLeaf .cratePath "crate",
    .leaf .primitiveType .primitive,
    .token .looseKeyword,
    .token .punctuation,
    glyph "\x27"]

/-- A group of tokens in brackets of any form. -/
def grouped (k : Kind) (inner : Expr) : Expr :=
  .node k (.oneOf [
    glyph "(" ++ .many inner ++ glyph ")",
    glyph "[" ++ .many inner ++ glyph "]",
    glyph "\x7b" ++ .many inner ++ glyph "\x7d"])

def repeated (k : Kind) (inner : Expr) : Expr :=
  .node k (glyph "$" ++ glyph "(" ++ .many inner ++ glyph ")" ++
    .opt (.token .separator) ++ .oneOf [glyph "+", glyph "*", glyph "?"])

def metavariable : Expr := .leaf .metavariable .metavariable

def macroCall : Expr :=
  .node .macroInvocation
    (.field .macroName (.rule .usePath) ++ glyph "!" ++ .absent (glyph "=") ++ .rule .delimited)

def macroDefinition : Expr :=
  let rule := .node .macroRule
    (.field .left (.rule .patternTree) ++ op "=>" ++ .field .right (.rule .macroTree))
  let rules := .opt (.sepBy1 rule (op ";") ++ .opt (op ";"))
  .node .macroDefinition
    (word "macro_rules" ++ glyph "!" ++ .field .name identifier ++ .oneOf [
      glyph "(" ++ rules ++ glyph ")" ++ op ";",
      glyph "[" ++ rules ++ glyph "]" ++ op ";",
      glyph "\x7b" ++ rules ++ glyph "\x7d"])

def attributeOf (k : Kind) (mark : Expr) : Expr :=
  .node k (glyph "#" ++ mark ++ glyph "[" ++ .many (.rule .tokens) ++ glyph "]")

/-! ## Items -/

def functionHead : Expr :=
  let modifiers := .node .functionModifiers (.many1 (.oneOf [
    word "async", word "default", word "const", word "unsafe",
    .node .externModifier (word "extern" ++ .opt (.leaf .stringLiteral .string))]))
  optVisibility ++ .opt modifiers ++ word "fn" ++ .field .name (identifier <|> metavariable) ++
    .opt (.field .typeParameters (.rule .typeParameters)) ++
    .field .parameters (.rule .parameters) ++
    .opt (op "->" ++ .field .returnType (.rule .type)) ++ .opt (.rule .whereClause)

def parameters : Expr :=
  .node .parameters (parens (commaList (.rule .attributes ++ .rule .parameter)))

def parameter : Expr :=
  .oneOf [
    .node .parameter
      (.opt mutable ++ .field .pattern (selfValue <|> .rule .singlePattern) ++
        op ":" ++ .field .type (.rule .type)),
    .node .selfParameter
      (.opt (glyph "&" ++ .opt (.rule .lifetime)) ++ .opt mutable ++ selfValue),
    .node .variadicParameter (.opt (.rule .singlePattern ++ op ":") ++ op "..."),
    word "_",
    .rule .type]

def fieldList : Expr :=
  .node .fieldDeclarationList (braces (commaList (.rule .attributes ++
    .node .fieldDeclaration (optVisibility ++ .field .name fieldIdentifier ++ op ":" ++
      .field .type (.rule .type)))))

def orderedFieldList : Expr :=
  .node .orderedFieldDeclarationList (parens (commaList
    (.rule .attributes ++ optVisibility ++ .field .type (.rule .type))))

def optWhere : Expr := .opt (.rule .whereClause)

def structItem : Expr :=
  .node .structItem
    (optVisibility ++ word "struct" ++ .field .name typeIdentifier ++
      .opt (.field .typeParameters (.rule .typeParameters)) ++ .oneOf [
        optWhere ++ .field .body fieldList,
        .field .body orderedFieldList ++ optWhere ++ op ";",
        optWhere ++ op ";"])

def enumItem : Expr :=
  let variant := .rule .attributes ++ .node .enumVariant
    (optVisibility ++ .field .name identifier ++ .opt (.field .body (fieldList <|> orderedFieldList)) ++
      .opt (op "=" ++ .field .value (.rule (.expression true))))
  .node .enumItem
    (optVisibility ++ word "enum" ++ .field .name typeIdentifier ++
      .opt (.field .typeParameters (.rule .typeParameters)) ++ optWhere ++
      .field .body (.node .enumVariantList (braces (commaList variant))))

def declarations : Expr := .node .declarationList (braces (.many (.rule .item)))

def value : Expr := .opt (op "=" ++ .field .value (.rule (.expression true)))

def implItem : Expr :=
  let header := .opt (glyph "!") ++ .field .trait (.rule .typePath) ++ word "for"
  .node .implItem
    (.opt (word "default") ++ .opt (word "unsafe") ++ word "impl" ++
      .opt (.field .typeParameters (.rule .typeParameters)) ++ .opt (word "const") ++
      .opt header ++ .field .type (.rule .type) ++ optWhere ++
      (.field .body declarations <|> op ";"))

def item : Expr :=
  .frame (.oneOf [
    attributeOf .attributeItem .done,
    attributeOf .innerAttributeItem (glyph "!"),
    .node .functionItem (.rule .functionHead ++ .field .body (.rule .block)),
    .node .functionSignatureItem (.rule .functionHead ++ op ";"),
    .node .modItem
      (optVisibility ++ .opt (word "unsafe") ++ word "mod" ++ .field .name identifier ++
        (op ";" <|> .field .body declarations)),
    structItem,
    enumItem,
    .node .unionItem
      (optVisibility ++ word "union" ++ .field .name typeIdentifier ++
        .opt (.field .typeParameters (.rule .typeParameters)) ++ optWhere ++ .field .body fieldList),
    implItem,
    .node .traitItem
      (optVisibility ++ .opt (word "unsafe") ++ .opt (word "auto") ++ word "trait" ++
        .field .name typeIdentifier ++
        .opt (.field .typeParameters (.rule .typeParameters)) ++ .opt (.rule .bounds) ++
        optWhere ++ .field .body declarations),
    .node .useDeclaration
      (optVisibility ++ word "use" ++ .field .argument (.rule .useClause) ++ op ";"),
    .node .typeItem
      (optVisibility ++ word "type" ++ .field .name typeIdentifier ++
        .opt (.field .typeParameters (.rule .typeParameters)) ++ optWhere ++ op "=" ++
        .field .type (.rule .type) ++ optWhere ++ op ";"),
    .node .associatedType
      (word "type" ++ .field .name typeIdentifier ++
        .opt (.field .typeParameters (.rule .typeParameters)) ++ .opt (.rule .bounds) ++
        optWhere ++ op ";"),
    .node .constItem
      (optVisibility ++ word "const" ++ .field .name identifier ++ op ":" ++
        .field .type (.rule .type) ++ value ++ op ";"),
    .node .staticItem
      (optVisibility ++ word "static" ++ .opt (word "ref") ++ .opt mutable ++
        .field .name identifier ++ op ":" ++ .field .type (.rule .type) ++ value ++ op ";"),
    .node .externCrateDeclaration
      (optVisibility ++ word "extern" ++ wordLeaf .cratePath "crate" ++
        .field .name (selfValue <|> identifier) ++
        .opt (word "as" ++ .field .asName identifier) ++ op ";"),
    .node .foreignModItem
      (optVisibility ++ .opt (word "unsafe") ++
        .node .externModifier (word "extern" ++ .opt (.leaf .stringLiteral .string)) ++
        (op ";" <|> .field .body declarations)),
    macroDefinition,
    .rule .macroCall ++ .opt (op ";"),
    .node .emptyStatement (op ";")])

def useClause : Expr :=
  let list := .node .useList (braces (commaList (.rule .useClause)))
  .oneOf [
    .node .useWildcard (.opt (.opt (.rule .usePath) ++ op "::") ++ op "*"),
    list,
    .node .scopedUseList (.opt (.field .path (.rule .usePath)) ++ op "::" ++ .field .list list),
    .node .useAsClause (.field .path (.rule .usePath) ++ word "as" ++ .field .asName identifier),
    .rule .usePath]

/-- A path of plain names. -/
def usePath : Expr :=
  let segment := .oneOf [selfValue, wordLeaf .superPath "super", wordLeaf .cratePath "crate",
    metavariable, identifier]
  let step := .grow .scopedIdentifier (some .path)
    (op "::" ++ .field .name (.oneOf [wordLeaf .superPath "super", selfValue, identifier]))
  .frame ((.node .scopedIdentifier (op "::" ++ .field .name identifier) <|> segment) ++ .many step)

/-! ## Generics -/

def lifetime : Expr := .node .lifetime (.token .tick ++ .leaf .identifier (.identifier)) <|>
  .node .lifetime (.token .tick ++ wordLeaf .identifier "static")

def bounds : Expr :=
  .node .traitBounds (op ":" ++ .opt (.sepBy1 (.rule .lifetime <|> .rule .plainType) (op "+") ++
    .opt (op "+")))

def typeParameters : Expr :=
  let one := .rule .attributes ++ .oneOf [
    .node .lifetimeParameter (.field .name (.rule .lifetime) ++ .opt (.rule .bounds)),
    .node .constParameter
      (word "const" ++ .field .name identifier ++ op ":" ++ .field .type (.rule .type) ++
        .opt (op "=" ++ .field .value (.oneOf [.rule .block, identifier, literal,
          .node .negativeLiteral (glyph "-" ++ literal)]))),
    .node .typeParameter
      (.field .name typeIdentifier ++ .opt (.rule .bounds) ++
        .opt (op "=" ++ .field .type (.rule .type))),
    metavariable]
  .node .typeParameters (glyph "<" ++ commaList one ++ glyph ">")

def whereClause : Expr :=
  .node .whereClause (word "where" ++ commaList (.node .wherePredicate
    (.field .left (.rule .lifetime <|> .rule .type) ++ .rule .bounds)))

def typeArguments : Expr :=
  let one := .oneOf [
    .rule .lifetime,
    .node .typeBinding
      (.field .name typeIdentifier ++ op "=" ++ .field .type (.rule .type)),
    literal,
    .node .negativeLiteral (glyph "-" ++ literal),
    .rule .block,
    .frame (.rule .type ++ .opt (.rule .bounds) ++
      .opt (.grow .typeBinding (some .name) (op "=" ++ .field .type (.rule .type))))]
  .node .typeArguments (glyph "<" ++ commaList one ++ glyph ">")

/-! ## Types -/

def bracketed : Expr :=
  .node .bracketedType (glyph "<" ++
    (.node .qualifiedType (.field .type (.rule .type) ++ word "as" ++ .field .asName (.rule .type)) <|>
      .rule .type) ++ glyph ">")

/-- The name of a type with the path to it and its arguments. A function type is a name with
parameters. -/
def typePath : Expr :=
  let segment := .oneOf [selfValue, wordLeaf .superPath "super", wordLeaf .cratePath "crate"]
  let follows := .ahead (op "::" ++ .absent (glyph "<"))
  let head := .oneOf [
    bracketed,
    segment ++ follows,
    metavariable,
    .node .scopedTypeIdentifier (op "::" ++ .field .name typeIdentifier),
    identifier ++ follows,
    typeIdentifier]
  .frame (head ++ .many (.oneOf [
    .grow .scopedIdentifier (some .path) (op "::" ++ .field .name identifier ++ follows),
    .grow .scopedTypeIdentifier (some .path) (op "::" ++ .field .name typeIdentifier),
    .grow .genericType (some .type)
      (.opt (op "::") ++ .field .typeArguments (.rule .typeArguments))]) ++
    .opt (.grow .functionType (some .trait) (.field .parameters (.rule .parameters) ++
      .opt (op "->" ++ .field .returnType (.rule .plainType)))))

def forLifetimes : Expr :=
  .node .forLifetimes (word "for" ++ glyph "<" ++ commaList (.rule .lifetime) ++ glyph ">")

def plainType : Expr :=
  .oneOf [
    .node .referenceType
      (glyph "&" ++ .opt (.rule .lifetime) ++ .opt mutable ++ .field .type (.rule .plainType)),
    .node .pointerType
      (glyph "*" ++ (word "const" <|> mutable) ++ .field .type (.rule .plainType)),
    .node .unitType (op "(" ++ op ")"),
    .node .tupleType (parens (commaList (.rule .type))),
    .node .arrayType
      (op "[" ++ .field .type (.rule .type) ++
        .opt (op ";" ++ .field .length (.rule (.expression true))) ++ op "]"),
    .leaf .neverType (.glyph ['!']),
    .node .removedTraitBound (glyph "?" ++ .rule .plainType),
    .node .abstractType (word "impl" ++ .opt forLifetimes ++ .field .trait (.rule .plainType)),
    .node .dynamicType (word "dyn" ++ .field .trait (.rule .plainType)),
    .node .functionType
      (.opt forLifetimes ++ .opt (.node .functionModifiers (.many1 (.oneOf [word "unsafe",
        .node .externModifier (word "extern" ++ .opt (.leaf .stringLiteral .string))]))) ++
        word "fn" ++ .field .parameters (.rule .parameters) ++
        .opt (op "->" ++ .field .returnType (.rule .plainType))),
    .node .higherRankedTraitBound (forLifetimes ++ .field .type (.rule .plainType)),
    .rule .macroCall,
    .leaf .primitiveType .primitive ++ .absent (op "::"),
    word "_",
    .rule .typePath]

def typeRule : Expr :=
  .chain (.rule .plainType)
    (.grow .boundedType none (op "+" ++ (.rule .lifetime <|> .rule .plainType)))

/-! ## Expressions -/

/-- A path in an expression, with arguments after a double colon. -/
def path : Expr :=
  let head := .oneOf [
    bracketed,
    .node .scopedIdentifier (op "::" ++ .field .name identifier),
    selfValue,
    wordLeaf .superPath "super",
    wordLeaf .cratePath "crate",
    metavariable,
    identifier]
  let argumentsThen (k : Kind) (f : Field) (after : Expr) : Expr := .grow k (some f)
    (op "::" ++ .field .typeArguments (.rule .typeArguments) ++ after)
  .frame (head ++ .many (.oneOf [
    .grow .scopedIdentifier (some .path)
      (op "::" ++ .field .name (wordLeaf .superPath "super" <|> identifier)),
    argumentsThen .genericType .type (.ahead (op "::")),
    argumentsThen .genericFunction .function .done]))

def structName : Expr :=
  let follows := .ahead (op "::")
  .frame (.oneOf [
      bracketed,
      (.oneOf [selfValue, wordLeaf .superPath "super", wordLeaf .cratePath "crate"]) ++ follows,
      .node .scopedTypeIdentifier (op "::" ++ .field .name typeIdentifier),
      identifier ++ follows ++ .absent (op "::" ++ glyph "<"),
      typeIdentifier] ++
    .many (.oneOf [
      .grow .scopedIdentifier (some .path)
        (op "::" ++ .field .name identifier ++ follows ++ .absent (op "::" ++ glyph "<")),
      .grow .scopedTypeIdentifier (some .path) (op "::" ++ .field .name typeIdentifier),
      .grow .genericType (some .type)
        (op "::" ++ .field .typeArguments (.rule .typeArguments) ++ follows),
      .grow .turbofishType (some .type)
        (op "::" ++ .field .typeArguments (.rule .typeArguments))]))

def fields : Expr :=
  .node .fieldInitializerList (braces (commaList (.oneOf [
    .node .baseFieldInitializer (op ".." ++ .opt (.rule (.expression true))),
    .node .fieldInitializer
      (.rule .attributes ++ .field .field (fieldIdentifier <|> .leaf .integerLiteral .index) ++
        op ":" ++ .field .value (.rule (.expression true))),
    .node .shorthandFieldInitializer (.rule .attributes ++ identifier)])))

def structExpression : Expr :=
  .node .structExpression (.field .name structName ++ .field .body (.rule .fields))

def labelled : Expr := .opt (.node .label (.token .tick ++ identifier) ++ op ":")

def condition : Expr :=
  let one := .node .letCondition
    (word "let" ++ .field .pattern (.rule .pattern) ++ op "=" ++
      .field .value (.rule (.binary 2 false)))
  let chain := .frame ((one <|> .rule (.binary 2 false)) ++
    .opt (.grow .letChain none (.many1 (op "&&" ++ (one <|> .rule (.binary 2 false))))))
  .oneOf [.ahead (word "let") ++ chain, .rule (.expression false) ++ .absent (op "&&"), chain]

def matchArm : Expr :=
  let head := .many (attributeOf .attributeItem .done) ++
    .field .pattern (.node .matchPattern (.rule .pattern ++
      .opt (word "if" ++ .field .condition (.rule .condition)))) ++ op "=>"
  .node .matchArm (head ++
    ((.field .value (.rule .blockLike) ++ .absent (.oneOf [op ".", op "?"]) ++ .opt comma) <|>
      (.field .value (.rule (.expression true)) ++ (comma <|> .ahead (op "\x7d")))))

def blockLike : Expr :=
  .oneOf [
    .node .unsafeBlock (word "unsafe" ++ .rule .block),
    .node .asyncBlock (word "async" ++ .opt (word "move") ++ .rule .block),
    .node .genBlock (word "gen" ++ .opt (word "move") ++ .rule .block),
    .node .tryBlock (word "try" ++ .rule .block),
    .node .constBlock (word "const" ++ .field .body (.rule .block)),
    .node .ifExpression
      (word "if" ++ .field .condition (.rule .condition) ++ .field .consequence (.rule .block) ++
        .opt (.field .alternative (.node .elseClause (word "else" ++ .rule .blockLike)))),
    .node .matchExpression
      (word "match" ++ .field .value (.rule (.expression false)) ++
        .field .body (.node .matchBlock (braces
          (.many (attributeOf .innerAttributeItem (glyph "!")) ++ .many matchArm)))),
    .node .whileExpression
      (labelled ++ word "while" ++ .field .condition (.rule .condition) ++
        .field .body (.rule .block)),
    .node .loopExpression (labelled ++ word "loop" ++ .field .body (.rule .block)),
    .node .forExpression
      (labelled ++ word "for" ++ .field .pattern (.rule .pattern) ++ word "in" ++
        .field .value (.rule (.expression false)) ++ .field .body (.rule .block)),
    .rule .block]

def block : Expr :=
  .node .block
    (labelled ++ braces (.many (.rule .statement)))

/-- A statement, or the value at the end of a block. -/
def statement : Expr :=
  .frame (.oneOf [
    .node .letDeclaration
      (word "let" ++ .opt mutable ++ .field .pattern (.rule .pattern) ++
        .opt (op ":" ++ .field .type (.rule .type)) ++
        .opt (op "=" ++ .field .value (.rule (.expression true)) ++
          .opt (word "else" ++ .field .alternative (.rule .block))) ++ op ";"),
    .node .expressionStatement (.rule .macroCall ++ op ";"),
    .node .expressionStatement
      (.rule .blockLike ++ .absent (.oneOf [op ".", op "?"]) ++ .opt (op ";")),
    .frame (.rule (.expression true) ++
      (.grow .expressionStatement none (op ";") <|> .ahead (op "\x7d"))),
    .rule .item])

def closure (structs : Bool) : Expr :=
  let one := .node .parameter (.field .pattern (.rule .singlePattern) ++ op ":" ++
    .field .type (.rule .type)) <|> .rule .singlePattern
  .node .closureExpression
    (.opt (word "static") ++ .opt (word "async") ++ .opt (word "move") ++
      .field .parameters (.node .closureParameters (glyph "|" ++ commaList one ++ glyph "|")) ++
      ((op "->" ++ .field .returnType (.rule .type) ++ .field .body (.rule .block)) <|>
        .field .body (.rule (.expression structs))))

def assignments : List String :=
  ["+=", "-=", "*=", "/=", "%=", "&=", "|=", "^=", "<<=", ">>="]

def expression (structs : Bool) : Expr :=
  let operand := .opt (.rule (.expression structs))
  let named := .opt (.node .label (.token .tick ++ identifier))
  .frame (.oneOf [
    closure structs,
    .node .returnExpression (word "return" ++ operand),
    .node .breakExpression (word "break" ++ named ++ operand),
    .node .continueExpression (word "continue" ++ named),
    .node .yieldExpression (word "yield" ++ operand),
    .rule (.range structs) ++ .opt
      (.grow .assignmentExpression (some .left)
          (op "=" ++ .field .right (.rule (.expression structs))) <|>
        .grow .compoundAssignmentExpression (some .left)
          (.field .operator (anyOp assignments) ++ .field .right (.rule (.expression structs))))])

def range (structs : Bool) : Expr :=
  let dots := .oneOf [op "..=", op "...", op ".."]
  let bound := .opt ((if structs then .done else .absent (op "\x7b")) ++
    .rule (.binary 0 structs))
  .frame (.node .rangeExpression (dots ++ bound) <|>
    (.rule (.binary 0 structs) ++ .opt (.grow .rangeExpression none (dots ++ bound))))

/-- The binary operators from the loosest to the tightest. -/
def operatorsAt : Nat → List String
  | 0 => ["||"]
  | 1 => ["&&"]
  | 2 => ["==", "!=", "<=", ">=", "<", ">"]
  | 3 => ["|"]
  | 4 => ["^"]
  | 5 => ["&"]
  | 6 => ["<<", ">>"]
  | 7 => ["+", "-"]
  | 8 => ["*", "/", "%"]
  | _ => []

/-- The level of casts, which bind tighter than all binary operators. -/
def castLevel : Nat := 9

def binary (level : Nat) (structs : Bool) : Expr :=
  if level ≥ castLevel then
    .chain (.rule (.unary structs)) (.grow .typeCastExpression (some .value)
      (word "as" ++ .field .type (.rule .plainType)))
  else
    let next := .rule (.binary (level + 1) structs)
    .chain next (.grow .binaryExpression (some .left)
      (.field .operator (anyOp (operatorsAt level)) ++ .field .right next))

def unary (structs : Bool) : Expr :=
  .oneOf [
    .node .unaryExpression
      (.oneOf [glyph "-", glyph "*", glyph "!"] ++ .rule (.unary structs)),
    .node .referenceExpression
      (glyph "&" ++ .opt (word "raw" ++ (word "const" <|> .ahead mutable)) ++ .opt mutable ++
        .field .value (.rule (.unary structs))),
    closure structs,
    .rule (.suffixed structs)]

def suffixed (structs : Bool) : Expr :=
  .chain (.rule (.primary structs)) (.oneOf [
    .grow .awaitExpression none (op "." ++ word "await"),
    .grow .fieldExpression (some .value)
      (op "." ++ .field .field (fieldIdentifier <|> .leaf .integerLiteral .index)),
    .grow .genericFunction (some .function)
      (op "::" ++ .field .typeArguments (.rule .typeArguments)),
    .grow .callExpression (some .function) (.field .arguments (.rule .arguments)),
    .grow .indexExpression none (op "[" ++ .rule (.expression true) ++ op "]"),
    .grow .tryExpression none (glyph "?")])

def arguments : Expr :=
  .node .arguments (parens (commaList (.rule .attributes ++ .rule (.expression true))))

def primary (structs : Bool) : Expr :=
  .oneOf [
    literal,
    .rule .blockLike,
    onlyIf structs structExpression,
    .rule .macroCall,
    .rule .path,
    .node .unitExpression (op "(" ++ op ")"),
    .frame (op "(" ++ .rule .attributes ++ .rule (.expression true) ++
      (.grow .parenthesizedExpression none (op ")") <|>
        .grow .tupleExpression none
          (comma ++ commaList (.rule (.expression true)) ++ op ")"))),
    .node .arrayExpression
      (op "[" ++ .opt (.rule .attributes ++ .rule (.expression true) ++
        ((op ";" ++ .field .length (.rule (.expression true))) <|>
          (.many (comma ++ .rule .attributes ++ .rule (.expression true)) ++ .opt comma))) ++
        op "]")]

/-! ## Patterns -/

def pattern : Expr :=
  .frame (.opt (glyph "|") ++ .rule .singlePattern ++
    .opt (.grow .orPattern none (.many1 (op "|" ++ .rule .singlePattern))))

def patternLiteral : Expr :=
  .node .negativeLiteral (glyph "-" ++ literal) <|> literal

def singlePattern : Expr :=
  let list := commaList (.rule .attributes ++ .rule .pattern)
  let bound := patternLiteral <|> .rule .path
  let field := .node .fieldPattern (.rule .attributes ++ .opt (word "ref") ++ .opt mutable ++
    ((.field .name (fieldIdentifier <|> .leaf .integerLiteral .index) ++ op ":" ++
        .field .pattern (.rule .pattern)) <|>
      .field .name (.leaf .shorthandFieldIdentifier .identifier)))
  let rest := .node .remainingFieldPattern (op "..")
  .oneOf [
    .node .rangePattern ((op "..=" <|> op "..") ++ bound),
    rest,
    .frame (patternLiteral ++ .opt
      (.grow .rangePattern none (.oneOf [op "..=", op "...", op ".."] ++ .opt bound))),
    .node .refPattern (word "ref" ++ .rule .singlePattern),
    .node .mutPattern (mutable ++ .rule .singlePattern),
    .node .referencePattern (glyph "&" ++ .opt mutable ++ .rule .singlePattern),
    .node .capturedPattern (identifier ++ glyph "@" ++ .rule .singlePattern),
    .node .tuplePattern (parens list),
    .node .slicePattern (op "[" ++ list ++ op "]"),
    .node .constBlock (word "const" ++ .field .body (.rule .block)),
    .node .structPattern (.field .type structName ++
      braces (commaList (.rule .attributes ++ (rest <|> field)))),
    .rule .macroCall,
    word "_" ++ .absent (op "::"),
    .frame (.rule .path ++ .opt (.oneOf [
      .grow .tupleStructPattern (some .type) (parens list),
      .grow .rangePattern none (.oneOf [op "..=", op "...", op ".."] ++ .opt bound)]))]

/-! ## The table -/

def rule : Rule → Expr
  | .program => .node .program (.opt (.leaf .shebang .shebang) ++ .many (.rule .statement))
  | .statement => statement
  | .item => item
  | .block => block
  | .blockLike => blockLike
  | .visibility => visibility
  | .attributes => .many (attributeOf .attributeItem .done)
  | .functionHead => functionHead
  | .parameters => parameters
  | .parameter => parameter
  | .whereClause => whereClause
  | .typeParameters => typeParameters
  | .bounds => bounds
  | .type => typeRule
  | .plainType => plainType
  | .typePath => typePath
  | .typeArguments => typeArguments
  | .path => path
  | .usePath => usePath
  | .useClause => useClause
  | .lifetime => lifetime
  | .expression structs => expression structs
  | .range structs => range structs
  | .binary level structs => binary level structs
  | .unary structs => unary structs
  | .suffixed structs => suffixed structs
  | .primary structs => primary structs
  | .condition => condition
  | .pattern => pattern
  | .singlePattern => singlePattern
  | .arguments => arguments
  | .fields => fields
  | .variantBody => fieldList <|> orderedFieldList
  | .tokens => .oneOf [.rule .delimited, looseToken, glyph "$"]
  | .delimited => grouped .tokenTree (.rule .tokens)
  | .macroTokens => .oneOf [
      .rule .macroTree,
      repeated .tokenRepetition (.rule .macroTokens),
      metavariable,
      looseToken]
  | .macroTree => grouped .tokenTree (.rule .macroTokens)
  | .patternTokens => .oneOf [
      .rule .patternTree,
      repeated .tokenRepetitionPattern (.rule .patternTokens),
      .node .tokenBindingPattern
        (.field .name metavariable ++ glyph ":" ++
          .field .type (.leaf .fragmentSpecifier .identifier)),
      metavariable,
      looseToken]
  | .patternTree => grouped .tokenTreePattern (.rule .patternTokens)
  | .macroCall => macroCall

/-- A run of blanks, or one comment. -/
def skip (c : Cursor) : Option (Nat × Option Kind) :=
  match c.rest with
  | '/' :: '/' :: _ => some (Lexeme.countWhile (· ≠ '\n') c.rest, some .lineComment)
  | '/' :: '*' :: cs => some (nestedCommentLength 1 cs + 2, some .blockComment)
  | cs => (positive? (Lexeme.countWhile isRustBlank cs)).map fun n => (n, none)

def grammar : Grammar Kind Token Rule where
  start := .program
  rule := rule
  scan := scan
  skip := skip
  glued := fun _ => false

end DepAtlas.Syntax.Rust
