import DepAtlas.Syntax.Grammar

/-! # Constructs of JavaScript and TypeScript -/

namespace DepAtlas.Syntax.Script

inductive Kind where
  | program | hashBangLine | comment
  -- imports and exports
  | importStatement | importClause | namespaceImport | namedImports | importSpecifier
  | importRequireClause | importAttribute | importAlias | exportStatement | exportClause
  | exportSpecifier | namespaceExport
  -- declarations
  | functionDeclaration | generatorFunctionDeclaration | functionSignature | classDeclaration
  | abstractClassDeclaration | classHeritage | extendsClause | implementsClause | classBody
  | methodDefinition | methodSignature | abstractMethodSignature | fieldDefinition
  | publicFieldDefinition | classStaticBlock | accessibilityModifier | overrideModifier
  | lexicalDeclaration | variableDeclaration | variableDeclarator | interfaceDeclaration
  | interfaceBody | extendsTypeClause | typeAliasDeclaration | enumDeclaration | enumBody
  | enumAssignment | ambientDeclaration | moduleDeclaration | internalModule | decorator
  -- statements
  | statementBlock | expressionStatement | ifStatement | elseClause | switchStatement | switchBody
  | switchCase | switchDefault | forStatement | forInStatement | whileStatement | doStatement
  | tryStatement | catchClause | finallyClause | withStatement | breakStatement
  | continueStatement | debuggerStatement | returnStatement | throwStatement | emptyStatement
  | labeledStatement | statementIdentifier
  -- expressions
  | identifier | propertyIdentifier | privatePropertyIdentifier | shorthandPropertyIdentifier
  | shorthandPropertyIdentifierPattern | computedPropertyName | number | string | stringFragment
  | regex | templateString | templateSubstitution | thisValue | superValue | trueValue
  | falseValue | nullValue | undefinedValue | importCallee | metaProperty | object | pair
  | spreadElement | array | parenthesizedExpression | functionExpression | generatorFunction
  | arrowFunction | classExpression | callExpression | newExpression | memberExpression
  | subscriptExpression | optionalChain | arguments | assignmentExpression
  | augmentedAssignmentExpression | awaitExpression | unaryExpression | binaryExpression
  | ternaryExpression | updateExpression | sequenceExpression | yieldExpression | asExpression
  | satisfiesExpression | nonNullExpression | typeAssertion | instantiationExpression
  -- patterns and parameters
  | formalParameters | requiredParameter | optionalParameter | restPattern | objectPattern
  | arrayPattern | pairPattern | objectAssignmentPattern | assignmentPattern
  -- markup
  | jsxElement | jsxSelfClosingElement | jsxOpeningElement | jsxClosingElement | jsxText
  | jsxExpression | jsxAttribute | jsxNamespaceName
  -- types
  | typeIdentifier | nestedIdentifier | nestedTypeIdentifier | genericType | predefinedType
  | thisType | literalType | templateLiteralType | templateType | objectType | arrayType
  | tupleType | restType | optionalType | lookupType | unionType | intersectionType
  | functionType | constructorType | conditionalType | inferType | indexTypeQuery | typeQuery
  | readonlyType | parenthesizedType | typePredicate | typePredicateAscription | asserts
  | assertsAscription | typeAscription | optingTypeAscription | omittingTypeAscription
  | addingTypeAscription | typeArguments | typeParameters | typeParameter | constraint
  | defaultType | propertySignature | callSignature | constructSignature | indexSignature
  | mappedTypeClause
  deriving DecidableEq, Repr

end DepAtlas.Syntax.Script
