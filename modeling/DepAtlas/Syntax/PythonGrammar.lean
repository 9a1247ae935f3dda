import DepAtlas.Syntax.PythonTokens

/-! # Grammar of Python -/

namespace DepAtlas.Syntax.Python

inductive Kind where
  | program | comment | block
  -- statements
  | importStatement | importFromStatement | futureImportStatement | relativeImport | importPrefix
  | aliasedImport | wildcardImport | dottedName | assertStatement | expressionStatement
  | returnStatement | deleteStatement | raiseStatement | passStatement | breakStatement
  | continueStatement | globalStatement | nonlocalStatement | typeAliasStatement | ifStatement
  | elifClause | elseClause | forStatement | whileStatement | tryStatement | exceptClause
  | finallyClause | withStatement | withClause | withItem | matchStatement | caseClause
  | functionDefinition | classDefinition | decoratedDefinition | decorator
  -- parameters and patterns
  | parameters | lambdaParameters | defaultParameter | typedParameter | typedDefaultParameter
  | listSplatPattern | dictionarySplatPattern | keywordSeparator | positionalSeparator
  | tuplePattern | listPattern | patternList | asPattern | asPatternTarget
  | casePattern | keywordPattern | classPattern | splatPattern | unionPattern | dictPattern
  | complexPattern
  -- expressions
  | identifier | string | concatenatedString | number | trueValue | falseValue | noneValue
  | ellipsis | await | binaryOperator | unaryOperator | notOperator | booleanOperator
  | comparisonOperator | conditionalExpression | namedExpression | lambda | assignment
  | augmentedAssignment | yield | expressionList | attribute | subscript | slice | call
  | argumentList | keywordArgument | listSplat | dictionarySplat | parenthesizedExpression | tuple
  | list | dictionary | set | pair | generatorExpression | listComprehension
  | dictionaryComprehension | setComprehension | forInClause | ifClause
  -- types
  | type | typeParameter | genericType | constrainedType
  deriving DecidableEq, Repr

inductive Rule where
  | program | statement | simple | compound | block | decorated | functionDefinition
  | classDefinition | expression | named | elements | rightSide | leftSide | target | yield
  | disjunction | conjunction | negation | comparison | binary (level : Nat) | unary | power
  | primary | atom | arguments | clauses | parameter (typed : Bool) | type | typeParameters
  | casePattern | simplePattern | closedPattern | assignment

abbrev Expr := Peg Kind Token Rule

def op (s : String) : Expr := .token (.op s.toList)

def word (s : String) : Expr := .token (.word s.toList)

def wordLeaf (k : Kind) (s : String) : Expr := .leaf k (.word s.toList)

def identifier : Expr := .leaf .identifier .identifier

def stringLiteral : Expr := .leaf .string .string

def comma : Expr := op ","

def anyOp (ss : List String) : Expr := .oneOf (ss.map op)

def aligned : Expr := .token .aligned

def lineEnd : Expr := .token .lineEnd

/-- Reads up to a closing bracket, over line ends. -/
def upTo (p : Expr) (close : String) : Expr := .enclosed true (p ++ op close)

/-- Reads `p` at the start of a later line. -/
def below (p : Expr) : Expr := .enclosed true (.frame (.enclosed false p))

/-- A list of one or more with an optional comma at its end. -/
def commaList1 (p : Expr) : Expr := .sepBy1 p comma ++ .opt comma

def commaList (p : Expr) : Expr := .opt (commaList1 p)

/-! ## Simple statements -/

def dottedName : Expr := .node .dottedName (.sepBy1 identifier (op "."))

def importList : Expr :=
  commaList1 (.field .name
    (.node .aliasedImport (.field .name dottedName ++ word "as" ++ .field .asName identifier) <|>
      dottedName))

def importedNames : Expr := (op "(" ++ upTo importList ")") <|> importList

def importFrom : Expr :=
  let dots := .node .importPrefix (.many1 (.token (.glyph ['.'])))
  let relative := .node .relativeImport (dots ++ .opt (.absent (word "import") ++ dottedName))
  .node .importFromStatement
    (word "from" ++ .field .moduleName (relative <|> dottedName) ++ word "import" ++
      (.leaf .wildcardImport (.op ['*']) <|> importedNames))

/-- One expression, or several as a list. -/
def expressions : Expr :=
  .frame (.rule .elements ++ .opt (.grow .expressionList none
    (comma ++ .sepBy (.rule .elements) comma ++ .opt comma)))

def augmented : Expr :=
  .node .augmentedAssignment
    (.field .left (.rule .leftSide) ++
      .field .operator (anyOp ["+=", "-=", "*=", "/=", "@=", "//=", "%=", "**=", ">>=", "<<=",
        "&=", "^=", "|="]) ++
      .field .right (.rule .rightSide))

def assignment : Expr :=
  .node .assignment
    (.field .left (.rule .leftSide) ++
      ((op ":" ++ .field .type (.rule .type) ++
          .opt (op "=" ++ .field .right (.rule .rightSide))) <|>
        (op "=" ++ .field .right (.rule .rightSide))))

def simple : Expr :=
  let names (k : Kind) (s : String) := .node k (word s ++ .sepBy1 identifier comma)
  .oneOf [
    .node .futureImportStatement
      (word "from" ++ word "__future__" ++ word "import" ++ importedNames),
    importFrom,
    .node .importStatement (word "import" ++ importList),
    .node .assertStatement (word "assert" ++ .sepBy1 (.rule .expression) comma),
    .node .returnStatement (word "return" ++ .opt expressions),
    .node .deleteStatement (word "del" ++ expressions),
    .node .raiseStatement
      (word "raise" ++ .opt expressions ++
        .opt (word "from" ++ .field .cause (.rule .expression))),
    wordLeaf .passStatement "pass",
    wordLeaf .breakStatement "break",
    wordLeaf .continueStatement "continue",
    names .globalStatement "global",
    names .nonlocalStatement "nonlocal",
    .node .typeAliasStatement
      (word "type" ++ .field .left (.node .type (.frame (identifier ++
          .opt (.grow .genericType none (.rule .typeParameters))))) ++
        op "=" ++ .field .right (.rule .type)),
    .node .expressionStatement (.oneOf [
      .rule .assignment,
      augmented,
      .rule .yield,
      commaList1 (.rule .elements)])]

def simpleLine : Expr :=
  .sepBy1 (.rule .simple) (op ";") ++ .opt (op ";") ++ lineEnd

/-! ## Compound statements -/

/-- A colon and then statements on the same line, or a deeper block on the lines below. The
indentation is read before the block, in whose place blanks are no longer there. -/
def suite (wrap : Expr → Expr) : Expr :=
  op ":" ++
    ((.token .indent ++ .enclosed true (wrap (.enclosed false (.rule .block))) ++
        .token .dedent) <|>
      (.absent lineEnd ++ wrap (.node .block simpleLine)))

def block : Expr :=
  .node .block
    (.rule .statement ++ .many (aligned ++ .rule .statement) ++
      .many (.leaf .comment .blockComment))

def body : Expr := suite (.field .body)

def consequence : Expr := suite (.field .consequence)

def elseClause : Expr :=
  .opt (aligned ++ below (.field .alternative (.node .elseClause (word "else" ++ body))))

def condition : Expr := .field .condition (.rule .named)

/-- An expression that may be bound to a target. -/
def bound : Expr :=
  .frame (.rule .expression ++ .opt (.grow .asPattern none
    (word "as" ++ .field .asName (.node .asPatternTarget (.rule .expression)))))

def withClause : Expr :=
  let items := commaList1 (.node .withItem (.field .value bound))
  .node .withClause ((op "(" ++ upTo items ")" ++ .ahead (op ":")) <|> items)

def tryStatement : Expr :=
  let handler := .node .exceptClause
    (word "except" ++ .opt (op "*") ++
      .opt (.field .value (.frame (.rule .elements ++ .opt (.grow .asPattern none
          (word "as" ++ .field .asName (.node .asPatternTarget (.rule .expression)))))) ++
        .many (comma ++ .rule .expression)) ++
      suite id)
  let final := .node .finallyClause (word "finally" ++ suite id)
  .node .tryStatement
    (word "try" ++ body ++ .many (aligned ++ below handler) ++
      .opt (aligned ++ below (.node .elseClause (word "else" ++ body))) ++
      .opt (aligned ++ below final))

def matchStatement : Expr :=
  let guarded := .opt (.field .guard (.node .ifClause (word "if" ++ .rule .named)))
  let branch := .node .caseClause
    (word "case" ++ commaList1 (.rule .casePattern) ++ guarded ++ consequence)
  .node .matchStatement
    (word "match" ++ commaList1 (.field .subject (.rule .elements)) ++ op ":" ++
      .token .indent ++ .enclosed true (.field .body (.enclosed false (.node .block
        (.field .alternative branch ++
          .many (aligned ++ below (.field .alternative branch)) ++
          .many (.leaf .comment .blockComment))))) ++
      .token .dedent)

def compound : Expr :=
  .oneOf [
    .node .ifStatement
      (word "if" ++ condition ++ consequence ++
        .many (aligned ++ below (.field .alternative
          (.node .elifClause (word "elif" ++ condition ++ consequence)))) ++
        elseClause),
    .node .forStatement
      (.opt (word "async") ++ word "for" ++ .field .left (.rule .leftSide) ++ word "in" ++
        .field .right expressions ++ body ++ elseClause),
    .node .whileStatement (word "while" ++ condition ++ body ++ elseClause),
    tryStatement,
    .node .withStatement (.opt (word "async") ++ word "with" ++ withClause ++ body),
    .rule .functionDefinition,
    .rule .classDefinition,
    .rule .decorated,
    matchStatement]

def functionDefinition : Expr :=
  .node .functionDefinition
    (.opt (word "async") ++ word "def" ++ .field .name identifier ++
      .opt (.field .typeParameters (.rule .typeParameters)) ++
      .field .parameters
        (.node .parameters (op "(" ++ upTo (commaList (.rule (.parameter true))) ")")) ++
      .opt (op "->" ++ .field .returnType (.rule .type)) ++ body)

def classDefinition : Expr :=
  .node .classDefinition
    (word "class" ++ .field .name identifier ++
      .opt (.field .typeParameters (.rule .typeParameters)) ++
      .opt (.field .superclasses (.rule .arguments)) ++ body)

def decorated : Expr :=
  .node .decoratedDefinition
    (decorator ++ .many (below decorator) ++
      below (.field .definition (.rule .functionDefinition <|> .rule .classDefinition)))
where
  decorator := .node .decorator (op "@" ++ .rule .named ++ lineEnd)

/-! ## Parameters and targets -/

def parameter (typed : Bool) : Expr :=
  let starred (k : Kind) (s : String) : Expr := .node k (op s ++ .rule .primary)
  let value := op "=" ++ .field .value (.rule .expression)
  let ascribed := op ":" ++ .field .type (.rule .type)
  let splat := starred .listSplatPattern "*" <|> starred .dictionarySplatPattern "**"
  let typedForms := .oneOf [
    .node .typedDefaultParameter (.field .name identifier ++ ascribed ++ value),
    .node .typedParameter ((identifier <|> splat) ++ ascribed)]
  let forms := .oneOf [
    .node .defaultParameter (.field .name identifier ++ value),
    splat,
    .leaf .keywordSeparator (.op ['*']),
    .leaf .positionalSeparator (.op ['/']),
    identifier]
  if typed then typedForms <|> forms else forms

def leftSide : Expr :=
  .frame (.rule .target ++ .opt (.grow .patternList none
    (comma ++ .sepBy (.rule .target) comma ++ .opt comma)))

def target : Expr :=
  let ends := .absent (.oneOf [op ".", op "[", op "("])
  .oneOf [
    .node .tuplePattern (op "(" ++ upTo (commaList (.rule .target)) ")") ++ ends,
    .node .listPattern (op "[" ++ upTo (commaList (.rule .target)) "]") ++ ends,
    .node .listSplatPattern (op "*" ++ .rule .primary),
    .rule .primary]

/-! ## Expressions -/

def yieldExpression : Expr :=
  .node .yield (word "yield" ++
    ((word "from" ++ .rule .expression) <|> .opt expressions))

def lambdaExpression : Expr :=
  .node .lambda
    (word "lambda" ++
      .opt (.field .parameters (.node .lambdaParameters (commaList1 (.rule (.parameter false))))) ++
      op ":" ++ .field .body (.rule .expression))

def expression : Expr :=
  .frame (lambdaExpression <|> (.rule .disjunction ++
    .opt (.grow .conditionalExpression none
      (word "if" ++ .rule .disjunction ++ word "else" ++ .rule .expression))))

/-- An expression that may name its value. -/
def named : Expr :=
  .node .namedExpression
    (.field .name identifier ++ op ":=" ++ .field .value (.rule .expression)) <|>
  .rule .expression

/-- An element of a list: an expression, or all items of one. -/
def element : Expr := .node .listSplat (op "*" ++ .rule (.binary 0)) <|> .rule .named

def boolean (next : Rule) (s : String) : Expr :=
  .chain (.rule next) (.grow .booleanOperator (some .left)
    (.field .operator (word s) ++ .field .right (.rule next)))

def negation : Expr :=
  .node .notOperator (word "not" ++ .field .argument (.rule .negation)) <|> .rule .comparison

def comparison : Expr :=
  let operator := .oneOf [anyOp ["<=", ">=", "==", "!=", "<>", "<", ">"], word "in",
    word "not" ++ word "in", word "is" ++ word "not", word "is"]
  .frame (.rule (.binary 0) ++
    .opt (.grow .comparisonOperator none (.many1 (operator ++ .rule (.binary 0)))))

/-- The binary operators from the loosest to the tightest. -/
def operatorsAt : Nat → List String
  | 0 => ["|"]
  | 1 => ["^"]
  | 2 => ["&"]
  | 3 => ["<<", ">>"]
  | 4 => ["+", "-"]
  | 5 => ["*", "@", "/", "%", "//"]
  | _ => []

def binary (level : Nat) : Expr :=
  let next := if level ≥ 5 then Rule.unary else .binary (level + 1)
  .chain (.rule next) (.grow .binaryOperator (some .left)
    (.field .operator (anyOp (operatorsAt level)) ++ .field .right (.rule next)))

def unary : Expr :=
  .node .unaryOperator
    (.field .operator (anyOp ["+", "-", "~"]) ++ .field .argument (.rule .unary)) <|> .rule .power

def power : Expr :=
  .frame ((.node .await (word "await" ++ .rule .primary) <|> .rule .primary) ++
    .opt (.grow .binaryOperator (some .left)
      (.field .operator (op "**") ++ .field .right (.rule .unary))))

def subscriptItem : Expr :=
  let tail := .grow .slice none
    (op ":" ++ .opt (.rule .expression) ++ .opt (op ":" ++ .opt (.rule .expression)))
  .frame (tail <|> (element ++ .opt tail))

def primary : Expr :=
  .chain (.rule .atom) (.oneOf [
    .grow .attribute (some .object) (op "." ++ .field .attribute identifier),
    .grow .call (some .function) (.field .arguments (.rule .arguments)),
    .grow .subscript (some .value)
      (op "[" ++ upTo (commaList1 (.field .subscript subscriptItem)) "]")])

def argument : Expr :=
  .oneOf [
    .node .dictionarySplat (op "**" ++ .rule .expression),
    .node .listSplat (op "*" ++ .rule .expression),
    .node .keywordArgument
      (.field .name identifier ++ op "=" ++ .field .value (.rule .expression)),
    .rule .named]

/-- Arguments in parentheses; a comprehension may stand alone there. -/
def arguments : Expr :=
  .frame (op "(" ++ .enclosed true (.oneOf [
    .grow .argumentList none (op ")"),
    argument ++
      (.grow .generatorExpression none (.rule .clauses ++ op ")") <|>
        .grow .argumentList none (.many (comma ++ argument) ++ .opt comma ++ op ")"))]))

def clauses : Expr :=
  let operand := lambdaExpression <|> .rule .disjunction
  let loop := .node .forInClause
    (.opt (word "async") ++ word "for" ++ .field .left (.rule .leftSide) ++ word "in" ++
      .field .right (.sepBy1 operand comma))
  loop ++ .many (loop <|> .node .ifClause (word "if" ++ (namedOperand <|> operand)))
where
  namedOperand := .node .namedExpression
    (.field .name identifier ++ op ":=" ++ .field .value (.rule .expression))

def parenthesized : Expr :=
  .frame (op "(" ++ .enclosed true (.oneOf [
    .grow .tuple none (op ")"),
    (.rule .yield <|> .rule .elements) ++ .oneOf [
      .grow .parenthesizedExpression none (op ")"),
      .grow .generatorExpression none (.rule .clauses ++ op ")"),
      .grow .tuple none (comma ++ commaList (.rule .elements) ++ op ")")]]))

def bracketed : Expr :=
  .frame (op "[" ++ .enclosed true (.oneOf [
    .grow .list none (op "]"),
    (.rule .yield <|> .rule .elements) ++ .oneOf [
      .grow .listComprehension none (.rule .clauses ++ op "]"),
      .grow .list none (.many (comma ++ .rule .elements) ++ .opt comma ++ op "]")]]))

def braced : Expr :=
  let close := op "\x7d"
  let pair := .node .pair
    (.field .key (.rule .expression) ++ op ":" ++ .field .value (.rule .expression))
  let entry := .node .dictionarySplat (op "**" ++ .rule (.binary 0)) <|> pair
  .frame (op "\x7b" ++ .enclosed true (.oneOf [
    .grow .dictionary none close,
    entry ++ (.grow .dictionaryComprehension none (.rule .clauses ++ close) <|>
      .grow .dictionary none (.many (comma ++ entry) ++ .opt comma ++ close)),
    .rule .elements ++ (.grow .setComprehension none (.rule .clauses ++ close) <|>
      .grow .set none (.many (comma ++ .rule .elements) ++ .opt comma ++ close))]))

def atom : Expr :=
  .oneOf [
    .frame (stringLiteral ++ .opt (.grow .concatenatedString none (.many1 stringLiteral))),
    identifier,
    .leaf .number .number,
    wordLeaf .trueValue "True",
    wordLeaf .falseValue "False",
    wordLeaf .noneValue "None",
    .leaf .ellipsis (.op "...".toList),
    parenthesized,
    bracketed,
    braced]

/-! ## Types -/

def type : Expr :=
  .node .type (.node .listSplat (op "*" ++ .rule .primary) <|> .rule .expression)

def typeParameters : Expr :=
  let bounded := .node .type (.frame
    ((.node .listSplat ((op "**" <|> op "*") ++ identifier) <|> .rule .expression) ++
      .opt (.grow .constrainedType none (op ":" ++ .rule .type)) ++
      .opt (op "=" ++ .rule .type)))
  .node .typeParameter (op "[" ++ upTo (commaList1 bounded) "]")

/-! ## Patterns of a match -/

def casePattern : Expr :=
  let plain := .node .keywordPattern (identifier ++ op "=" ++ .rule .simplePattern) <|>
    .rule .simplePattern
  .node .casePattern
    (.frame (.node .casePattern plain ++ .grow .asPattern none (word "as" ++ identifier)) <|>
      plain)

def simplePattern : Expr :=
  .frame (.rule .closedPattern ++
    .opt (.grow .unionPattern none (.many1 (op "|" ++ .rule .closedPattern))))

def closedPattern : Expr :=
  let patterns := commaList (.rule .casePattern)
  let number := .opt (op "-") ++ .leaf .number .number
  let keyed := .field .key (.rule .simplePattern) ++ op ":" ++ .field .value (.rule .casePattern)
  let splat := .node .splatPattern ((op "**" <|> op "*") ++ identifier)
  .oneOf [
    splat,
    .node .classPattern (dottedName ++ op "(" ++ upTo patterns ")"),
    .node .listPattern (op "[" ++ upTo patterns "]"),
    .node .tuplePattern (op "(" ++ upTo patterns ")"),
    .node .dictPattern (op "\x7b" ++ upTo (commaList (splat <|> keyed)) "\x7d"),
    .frame (stringLiteral ++ .opt (.grow .concatenatedString none (.many1 stringLiteral))),
    .node .complexPattern (number ++ (op "+" <|> op "-") ++ .leaf .number .number),
    number,
    wordLeaf .trueValue "True",
    wordLeaf .falseValue "False",
    wordLeaf .noneValue "None",
    dottedName]

/-! ## The table -/

def rule : Rule → Expr
  | .program => .node .program (.many (aligned ++ .rule .statement))
  | .statement => below (.rule .compound <|> simpleLine)
  | .simple => simple
  | .compound => compound
  | .block => block
  | .decorated => decorated
  | .functionDefinition => functionDefinition
  | .classDefinition => classDefinition
  | .expression => expression
  | .named => named
  | .elements => element
  | .rightSide => .oneOf [.rule .assignment, augmented, .rule .yield, expressions]
  | .leftSide => leftSide
  | .target => target
  | .yield => yieldExpression
  | .disjunction => boolean .conjunction "or"
  | .conjunction => boolean .negation "and"
  | .negation => negation
  | .comparison => comparison
  | .binary n => binary n
  | .unary => unary
  | .power => power
  | .primary => primary
  | .atom => atom
  | .arguments => arguments
  | .clauses => clauses
  | .parameter typed => parameter typed
  | .type => type
  | .typeParameters => typeParameters
  | .casePattern => casePattern
  | .simplePattern => simplePattern
  | .closedPattern => closedPattern
  | .assignment => assignment

/-- A run of blanks, a joined line or a comment. Line ends are blanks between brackets only. -/
def skip (c : Cursor) : Option (Nat × Option Kind) :=
  match c.rest with
  | '#' :: _ => some (Lexeme.lineLength c.rest, some .comment)
  | '\\' :: '\n' :: _ => some (2, none)
  | '\\' :: '\r' :: '\n' :: _ => some (3, none)
  | cs =>
    let lines := c.layout.enclosed
    match Lexeme.countWhile (fun x => isPythonBlank x && (lines || x ≠ '\n')) cs with
    | 0 => none
    | n + 1 => some (n + 1, none)

def grammar : Grammar Kind Token Rule where
  start := .program
  rule := rule
  scan := scan
  skip := skip
  glued := glued

end DepAtlas.Syntax.Python
