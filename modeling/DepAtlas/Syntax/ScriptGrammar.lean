import DepAtlas.Syntax.ScriptKinds
import DepAtlas.Syntax.ScriptTokens

/-! # Grammar of JavaScript and TypeScript

One rule table for the three dialects. Types and declarations of types are read where the dialect
is typed, markup elements where it has them.
-/

namespace DepAtlas.Syntax.Script

structure Dialect where
  typed : Bool
  markup : Bool
  deriving DecidableEq, Repr

namespace Dialect

def javaScript : Dialect := ⟨false, true⟩

def typeScript : Dialect := ⟨true, false⟩

def tsx : Dialect := ⟨true, true⟩

end Dialect

inductive Rule where
  | program | statement | block | declaration | importStatement | exportStatement | decorator
  | functionDeclaration | classDeclaration | variableList | typeDeclaration | binding
  | expression | expressions | ternary | binary (level : Nat) | unary | chain | heritage
  | primary | newTarget | arguments | template | object | array | arrow | method | classTail
  | classMember | propertyName | parameters | parameter | pattern (targets : Bool)
  | callSignature | markup | markupName
  | type | unionType | intersectionType | unaryType | postfixType | primaryType | typeName
  | typeArguments | typeParameters | ascription | objectType (kind : Kind) | typeMember
  | indexSignature

abbrev Expr := Peg Kind Token Rule

def op (s : String) : Expr := .token (.op s.toList)

def glyph (s : String) : Expr := .token (.glyph s.toList)

def tight (s : String) : Expr := .token (.tight s.toList)

def word (s : String) : Expr := .token (.word s.toList)

def wordLeaf (k : Kind) (s : String) : Expr := .leaf k (.word s.toList)

def anyOp (ss : List String) : Expr := .oneOf (ss.map op)

def identifier : Expr := .leaf .identifier .identifier

def typeIdentifier : Expr := .leaf .typeIdentifier .identifier

def propertyIdentifier : Expr := .leaf .propertyIdentifier .name

def privateIdentifier : Expr := .leaf .privatePropertyIdentifier .privateName

def stringLiteral : Expr := .leaf .string .string

def numberLiteral : Expr := .leaf .number .number

def sameLine : Expr := .token .sameLine

def semicolon : Expr := op ";" <|> .token .softEnd

/-- The end of a declaration that no bracket on the next line continues. -/
def typeEnd : Expr := op ";" <|> .token .softEndType

def nothing : Expr := .absent .done

/-- `p` where the condition holds. -/
def onlyIf (b : Bool) (p : Expr) : Expr := if b then p else nothing

def optIf (b : Bool) (p : Expr) : Expr := if b then .opt p else .done

def parens (p : Expr) : Expr := op "(" ++ .enclosed true p ++ op ")"

def brackets (p : Expr) : Expr := op "[" ++ .enclosed true p ++ op "]"

def braces (p : Expr) : Expr := op "\x7b" ++ .enclosed false p ++ op "\x7d"

/-- Braces around a list, in which line ends carry no meaning. -/
def curly (p : Expr) : Expr := op "\x7b" ++ .enclosed true p ++ op "\x7d"

def comma : Expr := op ","

/-- A list with an optional comma at its end. -/
def commaList (p : Expr) : Expr := .sepBy p comma ++ .opt comma

/-- A word that modifies the name after it. -/
def modifier (s : String) : Expr :=
  word s ++ .ahead (.oneOf [.token .name, .token .privateName, .token .string, .token .number,
    op "[", op "*", op "\x7b"])

def initializer : Expr := op "=" ++ .field .value (.rule .expression)

/-! ## Modules -/

def moduleName : Expr := identifier <|> stringLiteral <|> word "default"

def fromClause : Expr :=
  word "from" ++ .field .source stringLiteral ++
    .opt (.node .importAttribute ((word "with" <|> word "assert") ++ .rule .object))

def importSpecifier (typed : Bool) : Expr :=
  let plain := (.field .name moduleName ++ word "as" ++ .field .asName identifier) <|>
    .field .name identifier
  let follow := .ahead (comma <|> op "\x7d")
  .node .importSpecifier
    (onlyIf typed ((word "type" <|> word "typeof") ++ plain ++ follow) <|> (plain ++ follow))

def importClause (typed : Bool) : Expr :=
  let named := .node .namedImports (curly (commaList (importSpecifier typed)))
  let all := .node .namespaceImport (op "*" ++ word "as" ++ identifier)
  .node .importClause
    (.oneOf [all, named, identifier ++ .opt (comma ++ (all <|> named))])

def nestedIdentifier : Expr :=
  .frame (identifier ++ .opt
    (.many (.grow .memberExpression (some .object)
        (op "." ++ .field .property propertyIdentifier ++ .ahead (op "."))) ++
      .grow .nestedIdentifier (some .object) (op "." ++ .field .property propertyIdentifier)))

def importAlias : Expr :=
  .node .importAlias (word "import" ++ identifier ++ op "=" ++ nestedIdentifier ++ typeEnd)

def importStatement (typed : Bool) : Expr :=
  let required := .node .importRequireClause
    (identifier ++ op "=" ++ word "require" ++ op "(" ++ .field .source stringLiteral ++ op ")")
  .oneOf [
    .node .importStatement
      (word "import" ++ .absent (op "(" <|> op ".") ++ .oneOf [
        onlyIf typed ((word "type" <|> word "typeof") ++ importClause typed ++ fromClause),
        importClause typed ++ fromClause,
        onlyIf typed (.opt (word "type") ++ required),
        .field .source stringLiteral ++
          .opt (.node .importAttribute ((word "with" <|> word "assert") ++ .rule .object))] ++
        semicolon),
    onlyIf typed importAlias]

def exportSpecifier (typed : Bool) : Expr :=
  let plain := .field .name moduleName ++ .opt (word "as" ++ .field .asName moduleName)
  let follow := .ahead (comma <|> op "\x7d")
  .node .exportSpecifier
    (onlyIf typed ((word "type" <|> word "typeof") ++ plain ++ follow) <|> (plain ++ follow))

def exportStatement (typed : Bool) : Expr :=
  let clause := .node .exportClause (curly (commaList (exportSpecifier typed)))
  let all := .node .namespaceExport (op "*" ++ word "as" ++ moduleName)
  .node .exportStatement (.oneOf [
    word "export" ++ .oneOf [
      all ++ fromClause ++ semicolon,
      op "*" ++ fromClause ++ semicolon,
      clause ++ fromClause ++ semicolon,
      clause ++ semicolon,
      onlyIf typed (word "type" ++ .oneOf [all ++ fromClause, op "*" ++ fromClause,
        clause ++ .opt fromClause] ++ semicolon),
      onlyIf typed (op "=" ++ .rule .expression ++ semicolon),
      onlyIf typed (word "as" ++ word "namespace" ++ identifier ++ semicolon)],
    .many (.field .decorator (.rule .decorator)) ++ word "export" ++ .oneOf [
      word "default" ++ .oneOf [
        .field .declaration (.rule .declaration),
        .field .value (.rule .expression) ++ semicolon],
      .field .declaration (.rule .declaration)]])

/-! ## Declarations -/

def decorator (typed : Bool) : Expr :=
  .node .decorator (op "@" ++ (parenthesized <|> .frame (identifier ++
    .many (.grow .memberExpression (some .object)
      (op "." ++ .field .property propertyIdentifier)) ++
    .opt (.grow .callExpression (some .function)
      (optIf typed (.field .typeArguments (.rule .typeArguments)) ++
        .field .arguments (.rule .arguments))))))
where
  parenthesized := .node .parenthesizedExpression (parens (.rule .expressions))

def functionDeclaration (typed : Bool) : Expr :=
  let head (k : Kind) (star : Expr) := .node k
    (.opt (word "async" ++ sameLine) ++ word "function" ++ star ++ .field .name identifier ++
      .rule .callSignature ++ .field .body (.rule .block))
  .oneOf [
    head .functionDeclaration .done,
    head .generatorFunctionDeclaration (op "*"),
    onlyIf typed (.node .functionSignature
      (.opt (word "async") ++ word "function" ++ .opt (op "*") ++ .field .name identifier ++
        .rule .callSignature ++ typeEnd))]

def className (typed : Bool) : Expr := if typed then typeIdentifier else identifier

def classDeclaration (typed : Bool) : Expr :=
  let decorators := .many (.field .decorator (.rule .decorator))
  .oneOf [
    .node .classDeclaration
      (decorators ++ word "class" ++ .field .name (className typed) ++ .rule .classTail),
    onlyIf typed (.node .abstractClassDeclaration
      (decorators ++ word "abstract" ++ word "class" ++ .field .name (className typed) ++
        .rule .classTail))]

def classTail (typed : Bool) : Expr :=
  let implemented := .node .implementsClause (word "implements" ++ .sepBy1 (.rule .type) comma)
  let extended := .node .extendsClause (word "extends" ++ .sepBy1
    (.field .value (.rule .heritage) ++ .opt (.field .typeArguments (.rule .typeArguments))) comma)
  let heritage :=
    if typed then .node .classHeritage ((extended ++ .opt implemented) <|> implemented)
    else .node .classHeritage (word "extends" ++ .rule .heritage)
  optIf typed (.field .typeParameters (.rule .typeParameters)) ++ .opt heritage ++
    .field .body (.node .classBody (braces (.many (.rule .classMember))))

def accessibility : Expr :=
  .node .accessibilityModifier (modifier "public" <|> modifier "private" <|> modifier "protected")

/-- The modifiers of a typed member, in any order. -/
def memberModifiers (words : List String) : Expr :=
  .many (.oneOf (accessibility :: .node .overrideModifier (modifier "override") ::
    words.map modifier))

def methodHead (typed : Bool) : Expr :=
  (if typed then memberModifiers ["static", "readonly"] else .opt (modifier "static")) ++
    .opt (modifier "async") ++ .opt (modifier "get" <|> modifier "set" <|> op "*")

def methodDefinition (typed : Bool) : Expr :=
  methodHead typed ++ .field .name (.rule .propertyName) ++ optIf typed (op "?") ++
    .rule .callSignature ++ .field .body (.rule .block)

def classMember (typed : Bool) : Expr :=
  let decorators := .many (.field .decorator (.rule .decorator))
  let memberEnd := op ";" <|> comma <|> .token .softEndType
  let staticBlock :=
    .node .classStaticBlock (word "static" ++ .field .body (.rule .block))
  let signature (k : Kind) (words : List String) := .node k
    (memberModifiers words ++ .opt (modifier "async") ++
      .opt (modifier "get" <|> modifier "set" <|> op "*") ++ .field .name (.rule .propertyName) ++
      .opt (op "?") ++ .ahead (op "(" <|> op "<") ++ .rule .callSignature)
  if typed then
    .oneOf [
      staticBlock,
      decorators ++ .node .methodDefinition (methodDefinition true) ++ .opt (op ";"),
      decorators ++ signature .methodSignature ["static", "readonly"] ++ memberEnd,
      signature .abstractMethodSignature ["static", "readonly", "abstract"] ++ memberEnd,
      .rule .indexSignature ++ memberEnd,
      .node .publicFieldDefinition
        (decorators ++
          memberModifiers ["declare", "static", "readonly", "abstract", "accessor"] ++
          .field .name (.rule .propertyName) ++ .opt (op "?" <|> op "!") ++
          .opt (.field .type (.rule .ascription)) ++ .opt initializer) ++ memberEnd,
      op ";"]
  else
    .oneOf [
      staticBlock,
      .node .methodDefinition (decorators ++ methodDefinition false),
      .node .fieldDefinition
        (decorators ++ .opt (modifier "static") ++ .field .property (.rule .propertyName) ++
          .opt initializer) ++ semicolon,
      op ";"]

def propertyName : Expr :=
  .oneOf [propertyIdentifier, privateIdentifier, stringLiteral, numberLiteral,
    .node .computedPropertyName (brackets (.rule .expression))]

def declarator (typed : Bool) : Expr :=
  .node .variableDeclarator
    (.field .name (.rule (.pattern false)) ++
      optIf typed (.opt (op "!") ++ .field .type (.rule .ascription)) ++ .opt initializer)

def variableList (typed : Bool) (ending : Expr) : Expr :=
  let list := .sepBy1 (declarator typed) comma ++ ending
  .oneOf [
    .node .lexicalDeclaration (word "const" ++ list),
    .node .lexicalDeclaration
      (word "let" ++ .ahead (identifier <|> op "[" <|> op "\x7b") ++ list),
    .node .variableDeclaration (word "var" ++ list)]

def typeDeclaration : Expr :=
  let named := .field .name typeIdentifier ++ .opt (.field .typeParameters (.rule .typeParameters))
  let member := .node .enumAssignment (.field .name (.rule .propertyName) ++ initializer) <|>
    .field .name (.rule .propertyName)
  let place := stringLiteral <|> nestedIdentifier
  .oneOf [
    .node .typeAliasDeclaration
      (word "type" ++ named ++ op "=" ++ .field .value (.rule .type) ++ typeEnd),
    .node .interfaceDeclaration
      (word "interface" ++ named ++
        .opt (.node .extendsTypeClause
          (word "extends" ++ .sepBy1 (.field .type (.rule .typeName)) comma)) ++
        .field .body (.rule (.objectType .interfaceBody))),
    .node .enumDeclaration
      (.opt (word "const") ++ word "enum" ++ .field .name identifier ++
        .field .body (.node .enumBody (curly (commaList member)))),
    .node .moduleDeclaration
      (word "module" ++ .field .name place ++
        (.field .body (.rule .block) <|> typeEnd)),
    .node .ambientDeclaration
      (word "declare" ++ .oneOf [
        word "global" ++ .rule .block,
        .node .internalModule
          (word "namespace" ++ .field .name nestedIdentifier ++ .field .body (.rule .block)),
        .rule .declaration]),
    importAlias]

def internalModule : Expr :=
  .node .internalModule
    (word "namespace" ++ .field .name nestedIdentifier ++ .field .body (.rule .block))

def declaration (typed : Bool) : Expr :=
  .frame (.oneOf [
    .rule .functionDeclaration,
    .rule .classDeclaration,
    onlyIf typed (.rule .typeDeclaration),
    onlyIf typed internalModule,
    .rule .variableList])

/-! ## Statements -/

def condition : Expr :=
  .field .condition (.node .parenthesizedExpression (parens (.rule .expressions)))

def forIn (typed : Bool) : Expr :=
  let target := (word "const" <|> word "let" <|> word "var") ++
    .field .left (.rule (.pattern false)) ++
    optIf typed (.field .type (.rule .ascription)) ++ .opt initializer
  .node .forInStatement
    (word "for" ++ .opt (word "await") ++ op "(" ++ .enclosed true
      ((target <|> .field .left (.rule (.pattern true)) <|> .field .left (.rule .chain)) ++
        .field .operator (word "in" <|> word "of") ++ .field .right (.rule .expressions)) ++
      op ")" ++ .field .body (.rule .statement))

def forStatement (typed : Bool) : Expr :=
  let clause := .opt (.rule .expressions)
  .node .forStatement
    (word "for" ++ op "(" ++ .enclosed true
      (.field .initializer
        (.oneOf [variableList typed (op ";"),
          .node .expressionStatement (.rule .expressions ++ op ";"),
          .node .emptyStatement (op ";")]) ++
        .field .condition
          (.node .expressionStatement (.rule .expressions ++ op ";") <|>
            .node .emptyStatement (op ";")) ++
        .field .increment clause) ++
      op ")" ++ .field .body (.rule .statement))

def switchStatement : Expr :=
  let branch (k : Kind) (head : Expr) := .node k (head ++ op ":" ++ .many (.rule .statement))
  .node .switchStatement
    (word "switch" ++ .field .value (.node .parenthesizedExpression (parens (.rule .expressions))) ++
      .field .body (.node .switchBody (braces (.many
        (branch .switchCase (word "case" ++ .field .value (.rule .expressions)) <|>
          branch .switchDefault (word "default"))))))

def tryStatement (typed : Bool) : Expr :=
  .node .tryStatement
    (word "try" ++ .field .body (.rule .block) ++
      .opt (.field .handler (.node .catchClause
        (word "catch" ++
          .opt (op "(" ++ .field .parameter (.rule (.pattern false)) ++
            optIf typed (.field .type (.rule .ascription)) ++ op ")") ++
          .field .body (.rule .block)))) ++
      .opt (.node .finallyClause (word "finally" ++ .field .body (.rule .block))))

def jump (k : Kind) (s : String) : Expr :=
  .node k (word s ++
    .opt (sameLine ++ .field .label (.leaf .statementIdentifier .identifier)) ++ semicolon)

def statement (typed : Bool) : Expr :=
  .frame (.oneOf [
    .rule .block,
    .rule .exportStatement,
    .rule .importStatement,
    .rule .declaration,
    .node .ifStatement
      (word "if" ++ condition ++ .field .consequence (.rule .statement) ++
        .opt (.field .alternative (.node .elseClause (word "else" ++ .rule .statement)))),
    forIn typed,
    forStatement typed,
    .node .whileStatement (word "while" ++ condition ++ .field .body (.rule .statement)),
    .node .doStatement
      (word "do" ++ .field .body (.rule .statement) ++ word "while" ++ condition ++
        .opt semicolon),
    switchStatement,
    tryStatement typed,
    .node .withStatement
      (word "with" ++ .field .object (.node .parenthesizedExpression (parens (.rule .expressions))) ++
        .field .body (.rule .statement)),
    jump .breakStatement "break",
    jump .continueStatement "continue",
    .node .debuggerStatement (word "debugger" ++ semicolon),
    .node .returnStatement
      (word "return" ++ (semicolon <|> (.rule .expressions ++ semicolon))),
    .node .throwStatement (word "throw" ++ .rule .expressions ++ semicolon),
    .node .emptyStatement (op ";"),
    .node .labeledStatement
      (.field .label (.leaf .statementIdentifier .identifier) ++ op ":" ++
        .field .body (.rule .statement)),
    .node .expressionStatement (.rule .expressions ++ semicolon)])

/-! ## Expressions -/

def sequence : Expr :=
  .frame (.rule .expression ++
    .opt (.grow .sequenceExpression none (.many1 (comma ++ .rule .expression))))

def assignments : List String :=
  ["+=", "-=", "*=", "/=", "%=", "^=", "&=", "|=", ">>=", ">>>=", "<<=", "**=", "&&=", "||=", "??="]

def expression : Expr :=
  .frame (.oneOf [
    .rule .arrow,
    .node .yieldExpression
      (word "yield" ++ ((op "*" ++ .rule .expression) <|> .opt (sameLine ++ .rule .expression))),
    .ahead (op "\x7b" <|> op "[") ++ .node .assignmentExpression
      (.field .left (.rule (.pattern true)) ++ op "=" ++ .field .right (.rule .expression)),
    .rule .ternary ++ .opt
      (.grow .assignmentExpression (some .left) (op "=" ++ .field .right (.rule .expression)) <|>
        .grow .augmentedAssignmentExpression (some .left)
          (.field .operator (anyOp assignments) ++ .field .right (.rule .expression)))])

def arrow (typed : Bool) : Expr :=
  .node .arrowFunction
    (.opt (word "async" ++ sameLine ++ .absent (op "=>")) ++
      .oneOf [
        .field .parameter identifier ++ .ahead (op "=>"),
        .ahead (op "(" <|> onlyIf typed (op "<")) ++ .rule .callSignature] ++
      op "=>" ++ .field .body (.rule .block <|> .rule .expression))

def ternary : Expr :=
  .frame (.rule (.binary 0) ++ .opt (.grow .ternaryExpression (some .condition)
    (op "?" ++ .field .consequence (.rule .expression) ++ op ":" ++
      .field .alternative (.rule .expression))))

/-- The binary operators from the loosest to the tightest; words are operators too. -/
def operatorsAt : Nat → List String × List String
  | 0 => (["??"], [])
  | 1 => (["||"], [])
  | 2 => (["&&"], [])
  | 3 => (["|"], [])
  | 4 => (["^"], [])
  | 5 => (["&"], [])
  | 6 => (["===", "!==", "==", "!="], [])
  | 7 => (["<=", ">=", "<", ">"], ["instanceof", "in"])
  | 8 => (["<<", ">>>", ">>"], [])
  | 9 => (["+", "-"], [])
  | 10 => (["*", "/", "%"], [])
  | _ => ([], [])

/-- The level of the exponent operator, which groups to the right. -/
def exponentLevel : Nat := 11

def binary (typed : Bool) (level : Nat) : Expr :=
  if level ≥ exponentLevel then
    .frame (.rule .unary ++ .opt (.grow .binaryExpression (some .left)
      (.field .operator (op "**") ++ .field .right (.rule (.binary exponentLevel)))))
  else
    let (symbols, words) := operatorsAt level
    let plain := .grow .binaryExpression (some .left)
      (.field .operator (.oneOf (symbols.map op ++ words.map word)) ++
        .field .right (.rule (.binary (level + 1))))
    let cast := .grow .asExpression none
        (sameLine ++ word "as" ++ (word "const" <|> .rule .type)) <|>
      .grow .satisfiesExpression none (sameLine ++ word "satisfies" ++ .rule .type)
    .chain (.rule (.binary (level + 1)))
      (if typed && level = 7 then plain <|> cast else plain)

def unary (typed markup : Bool) : Expr :=
  .oneOf [
    .node .unaryExpression
      (.field .operator (.oneOf [op "!", op "~", op "-", op "+", word "typeof", word "void",
        word "delete"]) ++ .field .argument (.rule .unary)),
    .node .updateExpression
      (.field .operator (op "++" <|> op "--") ++ .field .argument (.rule .unary)),
    .node .awaitExpression (word "await" ++ .rule .unary),
    onlyIf (typed && !markup) (.node .typeAssertion (.rule .typeArguments ++ .rule .unary)),
    .frame (.rule .chain ++ .opt (.grow .updateExpression (some .argument)
      (sameLine ++ .field .operator (op "++" <|> op "--"))))]

def optionalChain : Expr := .field .optionalChain (.leaf .optionalChain (.op "?.".toList))

def memberSuffix : Expr :=
  .grow .memberExpression (some .object)
    ((op "." <|> optionalChain) ++ .field .property (propertyIdentifier <|> privateIdentifier))

def subscriptSuffix : Expr :=
  .grow .subscriptExpression (some .object)
    (.opt optionalChain ++ op "[" ++ .enclosed true (.field .index (.rule .expressions)) ++ op "]")

def callSuffix (typed : Bool) : Expr :=
  .grow .callExpression (some .function)
    (.opt optionalChain ++ optIf typed (.field .typeArguments (.rule .typeArguments)) ++
      .field .arguments (.rule .arguments))

def templateSuffix : Expr :=
  .grow .callExpression (some .function) (.field .arguments (.rule .template))

def nonNullSuffix : Expr := .grow .nonNullExpression none (sameLine ++ op "!")

/-- Type arguments stand alone only where no operand can follow. -/
def instantiationSuffix : Expr :=
  .grow .instantiationExpression none
    (.field .typeArguments (.rule .typeArguments) ++
      .absent (.oneOf [.token .name, .token .number, .token .string, glyph "\x60", op "(",
        op "[", op "\x7b"]))

def suffixes (typed : Bool) : Expr :=
  .oneOf [memberSuffix, subscriptSuffix, callSuffix typed, templateSuffix,
    onlyIf typed nonNullSuffix]

def chainRule (typed : Bool) : Expr :=
  .chain (.rule .primary) (suffixes typed <|> onlyIf typed instantiationSuffix)

def arguments : Expr :=
  .node .arguments (op "(" ++ .enclosed true (commaList
    (.node .spreadElement (op "..." ++ .rule .expression) <|> .rule .expression)) ++ op ")")

def template : Expr :=
  .node .templateString
    (glyph "\x60" ++ .many (.leaf .stringFragment .templateText <|>
      .node .templateSubstitution
        (tight "$\x7b" ++ .enclosed true (.rule .expressions) ++ op "\x7d")) ++ tight "\x60")

def object : Expr :=
  let entry := .oneOf [
    .node .spreadElement (op "..." ++ .rule .expression),
    .rule .method,
    .node .pair
      (.field .key (.rule .propertyName) ++ op ":" ++ .field .value (.rule .expression)),
    .leaf .shorthandPropertyIdentifier .identifier]
  .node .object (curly (commaList entry))

def array : Expr :=
  let element := .node .spreadElement (op "..." ++ .rule .expression) <|> .rule .expression
  .node .array (brackets (.opt element ++ .many (comma ++ .opt element)))

def functionExpression (k : Kind) (star : Expr) : Expr :=
  .node k (.opt (word "async" ++ sameLine) ++ word "function" ++ star ++
    .opt (.field .name identifier) ++ .rule .callSignature ++ .field .body (.rule .block))

def primary (typed markup : Bool) : Expr :=
  .oneOf [
    .node .parenthesizedExpression
      (parens (.rule .expressions ++ optIf typed (.field .type (.rule .ascription)))),
    wordLeaf .undefinedValue "undefined",
    wordLeaf .thisValue "this",
    wordLeaf .superValue "super",
    wordLeaf .trueValue "true",
    wordLeaf .falseValue "false",
    wordLeaf .nullValue "null",
    numberLiteral,
    stringLiteral,
    .rule .template,
    .leaf .regex .regex,
    .rule .object,
    .rule .array,
    functionExpression .functionExpression .done,
    functionExpression .generatorFunction (op "*"),
    .node .classExpression
      (.many (.field .decorator (.rule .decorator)) ++ word "class" ++
        .opt (.absent (word "implements") ++ .field .name (className typed)) ++ .rule .classTail),
    .node .metaProperty (word "new" ++ op "." ++ word "target"),
    .node .newExpression
      (word "new" ++ .field .ctor (.rule .newTarget) ++
        optIf typed (.field .typeArguments (.rule .typeArguments)) ++
        .opt (.field .arguments (.rule .arguments))),
    .node .metaProperty (word "import" ++ op "." ++ word "meta"),
    wordLeaf .importCallee "import",
    onlyIf markup (.rule .markup),
    identifier,
    privateIdentifier ++ .ahead (word "in")]

def newTarget (typed : Bool) : Expr :=
  .chain (.rule .primary) (.oneOf [memberSuffix, subscriptSuffix, onlyIf typed nonNullSuffix])

/-! ## Patterns and parameters -/

/-- A binding, or with `targets` anything that can be assigned to. -/
def pattern (targets : Bool) : Expr :=
  let withDefault (p : Expr) := .frame (p ++ .opt (.grow .assignmentPattern (some .left)
    (op "=" ++ .field .right (.rule .expression))))
  let inner := withDefault (.rule (.pattern targets))
  let name := .leaf .shorthandPropertyIdentifierPattern .identifier
  let entry := .oneOf [
    .node .restPattern (op "..." ++ .rule (.pattern targets)),
    .node .pairPattern (.field .key (.rule .propertyName) ++ op ":" ++ .field .value inner),
    .node .objectAssignmentPattern
      (.field .left name ++ op "=" ++ .field .right (.rule .expression)),
    name]
  .oneOf [
    .node .objectPattern (curly (commaList entry)),
    .node .arrayPattern (brackets (.opt inner ++ .many (comma ++ .opt inner))),
    .node .restPattern (op "..." ++ .rule (.pattern targets)),
    if targets then
      .chain (identifier <|> wordLeaf .thisValue "this" <|> wordLeaf .superValue "super")
        (memberSuffix <|> subscriptSuffix)
    else identifier <|> wordLeaf .undefinedValue "undefined"]

def parameter (typed : Bool) : Expr :=
  if typed then
    let head := .many (.field .decorator (.rule .decorator)) ++ .many (.oneOf
        [accessibility, .node .overrideModifier (modifier "override"), modifier "readonly"]) ++
      .field .pattern (wordLeaf .thisValue "this" <|> .rule (.pattern false))
    let tail := .opt (.field .type (.rule .ascription)) ++ .opt initializer
    .node .optionalParameter (head ++ op "?" ++ tail) <|> .node .requiredParameter (head ++ tail)
  else
    .frame (.rule (.pattern false) ++ .opt (.grow .assignmentPattern (some .left)
      (op "=" ++ .field .right (.rule .expression))))

def callSignature (typed : Bool) : Expr :=
  let parameters := .field .parameters (.rule .parameters)
  if typed then
    let returned := .oneOf [
      .node .assertsAscription (op ":" ++ .node .asserts (word "asserts" ++
        (predicate <|> identifier <|> wordLeaf .thisValue "this"))),
      .node .typePredicateAscription (op ":" ++ predicate),
      .rule .ascription]
    .opt (.field .typeParameters (.rule .typeParameters)) ++ parameters ++
      .opt (.field .returnType returned)
  else parameters
where
  predicate := .node .typePredicate
    (.field .name (identifier <|> wordLeaf .thisValue "this") ++ word "is" ++
      .field .type (.rule .type))

/-! ## Markup -/

def tagName : Expr := .leaf .identifier .tagName

def markupName : Expr :=
  .frame (tagName ++ .opt
    (.grow .jsxNamespaceName none (op ":" ++ tagName) <|>
      .many1 (.grow .memberExpression (some .object)
        (op "." ++ .field .property propertyIdentifier))))

def markupHole : Expr :=
  .node .jsxExpression (curly (.opt
    (.node .spreadElement (op "..." ++ .rule .expression) <|> .rule .expressions)))

def markupAttribute : Expr :=
  let name := .node .jsxNamespaceName (tagName ++ op ":" ++ tagName) <|>
    .leaf .propertyIdentifier .tagName
  .node .jsxAttribute (name ++ .opt (op "=" ++
    .oneOf [.leaf .string .tagString, markupHole, .rule .markup]))

def markupElement (typed : Bool) : Expr :=
  let child := .oneOf [.leaf .jsxText .tagText, markupHole, .rule .markup]
  let rest := .many child ++
    .node .jsxClosingElement (glyph "</" ++ .opt (.field .name (.rule .markupName)) ++ glyph ">")
  let opened := .grow .jsxOpeningElement none (glyph ">") ++ .grow .jsxElement none rest
  let named := .field .name (.rule .markupName) ++
    optIf typed (.field .typeArguments (.rule .typeArguments)) ++
    .many (.field .attribute (markupHole <|> markupAttribute))
  .frame (op "<" ++
    ((named ++ (.grow .jsxSelfClosingElement none (glyph "/>") <|> opened)) <|> opened))

/-! ## Types -/

def typeRule : Expr :=
  .frame (.rule .unionType ++ .opt (.grow .conditionalType (some .left)
    (sameLine ++ word "extends" ++ .field .right (.rule .unionType) ++ op "?" ++
      .field .consequence (.rule .type) ++ op ":" ++ .field .alternative (.rule .type))))

def unionType : Expr :=
  .chain (.node .unionType (op "|" ++ .rule .intersectionType) <|> .rule .intersectionType)
    (.grow .unionType none (op "|" ++ .rule .intersectionType))

def intersectionType : Expr :=
  .chain (.node .intersectionType (op "&" ++ .rule .unaryType) <|> .rule .unaryType)
    (.grow .intersectionType none (op "&" ++ .rule .unaryType))

def returned : Expr :=
  .oneOf [
    .node .asserts (word "asserts" ++
      (callSignature.predicate <|> identifier <|> wordLeaf .thisValue "this")),
    callSignature.predicate,
    .rule .type]

def functionType : Expr :=
  .ahead (op "(" <|> op "<") ++ .node .functionType
    (.opt (.field .typeParameters (.rule .typeParameters)) ++
      .field .parameters (.rule .parameters) ++ op "=>" ++ .field .returnType returned)

def constructorType : Expr :=
  .node .constructorType
    (.opt (word "abstract") ++ word "new" ++
      .opt (.field .typeParameters (.rule .typeParameters)) ++
      .field .parameters (.rule .parameters) ++ op "=>" ++ .field .type (.rule .type))

/-- What `typeof` may ask the type of. -/
def queried : Expr :=
  .chain (.oneOf [wordLeaf .thisValue "this", wordLeaf .importCallee "import", identifier])
    (.oneOf [memberSuffix, .grow .callExpression (some .function)
      (.field .arguments (.rule .arguments))])

def unaryType : Expr :=
  let operandStart := .ahead (.oneOf [.token .name, .token .string, .token .number, op "(",
    op "[", op "\x7b", op "<", glyph "\x60"])
  .oneOf [
    functionType,
    constructorType,
    .node .readonlyType (word "readonly" ++ operandStart ++ .rule .unaryType),
    .node .indexTypeQuery (word "keyof" ++ operandStart ++ .rule .unaryType),
    .node .inferType (word "infer" ++ typeIdentifier ++
      .opt (word "extends" ++ .rule .unionType ++ .absent (op "?"))),
    .rule .postfixType]

def postfixType : Expr :=
  .chain (.rule .primaryType) (sameLine ++
    (.grow .arrayType none (op "[" ++ op "]") <|>
      .grow .lookupType none (op "[" ++ .enclosed true (.rule .type) ++ op "]")))

def predefined : Expr :=
  .oneOf (wordLeaf .predefinedType "any" ::
    .node .predefinedType (word "unique" ++ word "symbol") ::
    ["number", "boolean", "string", "symbol", "void", "unknown", "never", "object"].map
      (wordLeaf .predefinedType))

def tupleMember : Expr :=
  .oneOf [
    .node .optionalParameter
      (.field .name identifier ++ op "?" ++ .field .type (.rule .ascription)),
    .node .requiredParameter
      (.field .name (.node .restPattern (op "..." ++ identifier) <|> identifier) ++
        .field .type (.rule .ascription)),
    .node .restType (op "..." ++ .rule .type),
    .frame (.rule .type ++ .opt (.grow .optionalType none (op "?")))]

def templateType : Expr :=
  .node .templateLiteralType
    (glyph "\x60" ++ .many (.leaf .stringFragment .templateText <|>
      .node .templateType (tight "$\x7b" ++ .enclosed true (.rule .type) ++ op "\x7d")) ++
      tight "\x60")

def primaryType : Expr :=
  .oneOf [
    .node .parenthesizedType (parens (.rule .type)),
    .rule (.objectType .objectType),
    .node .tupleType (brackets (commaList tupleMember)),
    .node .literalType (.oneOf [
      .node .unaryExpression (.field .operator (op "-" <|> op "+") ++
        .field .argument numberLiteral),
      numberLiteral, stringLiteral, wordLeaf .trueValue "true", wordLeaf .falseValue "false",
      wordLeaf .nullValue "null", wordLeaf .undefinedValue "undefined"]),
    templateType,
    .node .typeQuery (word "typeof" ++ queried ++
      .opt (.field .typeArguments (.rule .typeArguments))),
    wordLeaf .thisType "this",
    predefined,
    .chain (wordLeaf .importCallee "import")
      (.oneOf [memberSuffix, .grow .callExpression (some .function)
        (.field .arguments (.rule .arguments))]),
    .rule .typeName]

def typeName : Expr :=
  let place := .chain identifier (.grow .nestedIdentifier (some .object)
    (op "." ++ .field .property propertyIdentifier ++ .ahead (op ".")))
  .frame
    ((.node .nestedTypeIdentifier
        (.field .moduleName place ++ op "." ++ .field .name typeIdentifier) <|>
      typeIdentifier) ++
    .opt (.grow .genericType (some .name) (.field .typeArguments (.rule .typeArguments))))

def typeArguments : Expr :=
  .node .typeArguments (op "<" ++ .enclosed true (commaList (.rule .type)) ++ glyph ">")

def typeParameters : Expr :=
  let one := .node .typeParameter
    (.opt (word "const") ++ .field .name typeIdentifier ++
      .opt (.field .constraint (.node .constraint (word "extends" ++ .rule .type))) ++
      .opt (.field .value (.node .defaultType (op "=" ++ .rule .type))))
  .node .typeParameters (op "<" ++ .enclosed true (commaList one) ++ glyph ">")

def ascription : Expr := .node .typeAscription (op ":" ++ .rule .type)

def objectType (k : Kind) : Expr :=
  let between := .many (op ";" <|> comma)
  .node k (braces (between ++ .many (.rule .typeMember ++
    (.ahead (op "\x7d") <|> .many1 (op ";" <|> comma) <|> .token .softEndType))))

def indexSignature : Expr :=
  let key := .field .name identifier ++ op ":" ++ .field .index (.rule .type)
  let mapped := .node .mappedTypeClause
    (.field .name typeIdentifier ++ word "in" ++ .field .type (.rule .type) ++
      .opt (word "as" ++ .field .asName (.rule .type)))
  .node .indexSignature
    (.opt (.opt (.field .sign (op "-" <|> op "+")) ++ word "readonly") ++
      op "[" ++ .enclosed true (mapped <|> key) ++ op "]" ++
      .field .type (.oneOf [
        .rule .ascription,
        .node .optingTypeAscription (op "?" ++ op ":" ++ .rule .type),
        .node .omittingTypeAscription (op "-" ++ op "?" ++ op ":" ++ .rule .type),
        .node .addingTypeAscription (op "+" ++ op "?" ++ op ":" ++ .rule .type)]))

def typeMember : Expr :=
  .frame (.oneOf [
    .rule .exportStatement,
    .rule .indexSignature,
    .node .constructSignature
      (.opt (word "abstract") ++ word "new" ++ .ahead (op "(" <|> op "<") ++
        .opt (.field .typeParameters (.rule .typeParameters)) ++
        .field .parameters (.rule .parameters) ++ .opt (.field .type (.rule .ascription))),
    .ahead (op "(" <|> op "<") ++ .node .callSignature (.rule .callSignature),
    .node .methodSignature
      (memberModifiers ["static", "readonly"] ++ .opt (modifier "async") ++
        .opt (modifier "get" <|> modifier "set" <|> op "*") ++
        .field .name (.rule .propertyName) ++ .opt (op "?") ++ .ahead (op "(" <|> op "<") ++
        .rule .callSignature),
    .node .propertySignature
      (memberModifiers ["static", "readonly"] ++ .field .name (.rule .propertyName) ++
        .opt (op "?") ++ .opt (.field .type (.rule .ascription)))])

/-! ## The table -/

def rule (d : Dialect) : Rule → Expr
  | .program => .node .program
      (.opt (.leaf .hashBangLine .hashBang) ++ .many (.rule .statement))
  | .statement => statement d.typed
  | .block => .node .statementBlock (braces (.many (.rule .statement)))
  | .declaration => declaration d.typed
  | .importStatement => importStatement d.typed
  | .exportStatement => exportStatement d.typed
  | .decorator => decorator d.typed
  | .functionDeclaration => functionDeclaration d.typed
  | .classDeclaration => classDeclaration d.typed
  | .variableList => variableList d.typed semicolon
  | .typeDeclaration => typeDeclaration
  | .binding => declarator d.typed
  | .expression => expression
  | .expressions => sequence
  | .ternary => ternary
  | .binary n => binary d.typed n
  | .unary => unary d.typed d.markup
  | .chain => chainRule d.typed
  | .heritage => .chain (.rule .primary) (suffixes d.typed)
  | .primary => primary d.typed d.markup
  | .newTarget => newTarget d.typed
  | .arguments => arguments
  | .template => template
  | .object => object
  | .array => array
  | .arrow => arrow d.typed
  | .method => .node .methodDefinition (methodDefinition d.typed)
  | .classTail => classTail d.typed
  | .classMember => .frame (classMember d.typed)
  | .propertyName => propertyName
  | .parameters => .node .formalParameters
      (op "(" ++ .enclosed true (commaList (.rule .parameter)) ++ op ")")
  | .parameter => parameter d.typed
  | .pattern targets => pattern targets
  | .callSignature => callSignature d.typed
  | .markup => markupElement d.typed
  | .markupName => markupName
  | .type => typeRule
  | .unionType => unionType
  | .intersectionType => intersectionType
  | .unaryType => unaryType
  | .postfixType => postfixType
  | .primaryType => primaryType
  | .typeName => typeName
  | .typeArguments => typeArguments
  | .typeParameters => typeParameters
  | .ascription => ascription
  | .objectType k => objectType k
  | .typeMember => typeMember
  | .indexSignature => indexSignature

/-- A run of blanks, or one comment. -/
def skip (c : Cursor) : Option (Nat × Option Kind) :=
  match c.rest with
  | '/' :: '/' :: _ => some (Lexeme.lineLength c.rest, some .comment)
  | '/' :: '*' :: _ => some (Lexeme.blockCommentLength c.rest, some .comment)
  | cs => (positive? (Lexeme.countWhile isScriptBlank cs)).map fun n => (n, none)

def grammar (d : Dialect) : Grammar Kind Token Rule where
  start := .program
  rule := rule d
  scan := scan
  skip := skip
  glued := glued

end DepAtlas.Syntax.Script
