import CrossReference.Source.Lookahead
import CrossReference.Source.Step

/-!
The grammar: directives, classes and their members, top-level functions and variables, statements
down to `return`, and expressions. What it does not know becomes an `error` or `otherStmt` node, so
every token finds a place.
-/

namespace CrossReference.Source

open Lookahead

inductive CollectionForm where
  | list | map
deriving DecidableEq

namespace CollectionForm

def nodeKind : CollectionForm → NodeKind
  | list => .listLiteral
  | map => .mapLiteral

def opening : CollectionForm → TokenKind
  | list => .lBrack
  | map => .lBrace

def closing : CollectionForm → TokenKind
  | list => .rBrack
  | map => .rBrace

end CollectionForm

/-- The rules of the grammar. `owner` is the name of the class a declaration stands in. -/
inductive Rule where
  | item | importDirective | directive | metadata | unsupportedItem | classDecl
  | member (owner : Option String)
  | declaration (owner : Option String)
  | constructorRest | functionRest | declarators | typeRef | typeArgs | paramList | param
  | functionBody (inExpression : Bool)
  | block | statement | localVar | exprStmt | expr | unary | operand
  | collection (form : CollectionForm)
  | newExpr | argList

namespace Grammar

open Step

abbrev Act := Step Rule

def before (kinds : List TokenKind) (ts : List Token) : Bool :=
  !ts.isEmpty && !startsWithAny kinds ts

def followedBy (first second : TokenKind) (ts : List Token) : Bool :=
  startsWith first ts && kindAt? 1 ts == some second

def eat (kind : TokenKind) : Act := given (startsWith kind) .take

def expect (kind : TokenKind) : Act :=
  .look fun ts => if startsWith kind ts then .take else .report ("expected " ++ kind.label)

def takeGroup : Act := .look fun ts => takeMany (groupLength 0 ts)

def skipGroup (message : String) : Act :=
  inOrder [.report message, .node .error takeGroup]

def name : Act :=
  .look fun ts => if startsWith .ident ts then .node .name .take else .report "expected a name"

def nameRef : Act := .node .nameRef .take

def qualifiers : Act := .repeatWhile (followedBy .dot .ident) (inOrder [.take, .take])

def item : Act := .look fun ts =>
  if startsWith .importKw ts then .call .importDirective
  else if startsWithAny [.exportKw, .libraryKw, .partKw] ts then .call .directive
  else if startsWith .atSign ts then .call .metadata
  else if startsWithAny [.abstractKw, .classKw] ts then .call .classDecl
  else if startsWithAnyWord ["enum", "extension", "mixin", "typedef"] ts then
    .call .unsupportedItem
  else .call (.declaration none)

def importDirective : Act := .node .importDirective <| inOrder
  [.take,
   .look fun ts =>
    if startsWith .string ts then .node .stringLiteral .take
    else .report "expected an import uri",
   .repeatWhile (before [.semicolon, .importKw]) .take,
   expect .semicolon]

def directive : Act := .node .directive <| inOrder
  [.repeatWhile (before [.semicolon]) .take,
   expect .semicolon]

def metadata : Act := .node .metadata <| inOrder
  [.take, eat .ident, qualifiers, given (startsWith .lParen) (.call .argList)]

def unsupportedItem : Act := .node .error <| inOrder
  [.repeatWhile (before [.semicolon, .lBrace]) takeGroup, takeGroup]

def classBody (owner : Option String) : Act := .node .classBody <| inOrder
  [.take,
   .repeatWhile (before [.rBrace])
    (.insist (.call (.member owner)) (skipGroup "expected a class member")),
   expect .rBrace]

def classDecl : Act := .node .classDecl <| inOrder
  [eat .abstractKw,
   expect .classKw,
   .look fun ts => inOrder
    [name,
     given (startsWith .lAngle) (.call .typeArgs),
     .repeatWhile (startsWithAny [.extendsKw, .withKw, .implementsKw, .comma])
      (inOrder [.take, given (startsWith .ident) (.call .typeRef)]),
     .look fun us =>
      if startsWith .lBrace us then classBody (word? ts) else .report "expected a class body"]]

def member (owner : Option String) : Act := .look fun ts =>
  if startsWith .atSign ts then .call .metadata
  else if startsWith .semicolon ts then .take
  else .call (.declaration owner)

def atModifier (ts : List Token) : Bool :=
  startsWithAny [.staticKw, .finalKw, .constKw, .varKw, .lateKw, .factoryKw, .abstractKw] ts ||
    startsWithAnyWord ["external", "covariant"] ts

def atConstructor (owner : Option String) (ts : List Token) : Bool :=
  (match word? ts with
    | some word => owner == some word
    | none => false) &&
  (kindAt? 1 ts == some .lParen ||
    (kindAt? 1 ts == some .dot && kindAt? 2 ts == some .ident && kindAt? 3 ts == some .lParen))

def functionKind (owner : Option String) : NodeKind :=
  if owner.isSome then .methodDecl else .functionDecl

def variablesKind (owner : Option String) : NodeKind :=
  if owner.isSome then .fieldDecl else .topLevelVar

/-- A declaration that begins with a type; `named` starts with the name after it. -/
def typedDeclaration (owner : Option String) (named : List Token) : Act :=
  if startsWithWord "get" named && kindAt? 1 named == some .ident then
    .wrap .getterDecl <| inOrder
      [.call .typeRef, .take, name, .call (.functionBody false)]
  else if startsWithWord "set" named && kindAt? 1 named == some .ident then
    .wrap (functionKind owner) <| inOrder [.call .typeRef, .take, .call .functionRest]
  else if startsWithWord "operator" named then
    .wrap .error <| inOrder
      [.report "operator declarations are not supported",
       .repeatWhile (before [.semicolon, .lBrace, .fatArrow]) takeGroup,
       .call (.functionBody false)]
  else if kindAt? 1 named == some .lParen || kindAt? 1 named == some .lAngle then
    .wrap (functionKind owner) <| inOrder [.call .typeRef, .call .functionRest]
  else
    .wrap (variablesKind owner) <| inOrder
      [.call .typeRef, .call .declarators, expect .semicolon]

def declarationForm (owner : Option String) (ts : List Token) : Act :=
  if atConstructor owner ts then .wrap .constructorDecl (.call .constructorRest)
  else if startsWithWord "get" ts && kindAt? 1 ts == some .ident then
    .wrap .getterDecl <| inOrder [.take, name, .call (.functionBody false)]
  else if startsWithWord "set" ts && kindAt? 1 ts == some .ident then
    .wrap (functionKind owner) <| inOrder [.take, .call .functionRest]
  else match typedName? ts with
    | some named => typedDeclaration owner named
    | none =>
      if followedBy .ident .lParen ts then .wrap (functionKind owner) (.call .functionRest)
      else if startsWith .ident ts then
        .wrap (variablesKind owner) <| inOrder [.call .declarators, expect .semicolon]
      else
        .wrap .error <| inOrder
          [.report "expected a declaration", given (before [.rBrace]) takeGroup]

def declaration (owner : Option String) : Act :=
  .group <| inOrder [.repeatWhile atModifier .take, .look (declarationForm owner)]

def constructorRest : Act := inOrder
  [.node .name <| inOrder [.take, given (startsWith .dot) (inOrder [.take, .take])],
   .call .paramList,
   given (startsWith .colon) <| inOrder
    [.take, .repeatWhile (before [.lBrace, .semicolon, .fatArrow]) takeGroup],
   .call (.functionBody false)]

def functionRest : Act := inOrder
  [name,
   given (startsWith .lAngle) (.call .typeArgs),
   .call .paramList,
   .call (.functionBody false)]

def declarators : Act :=
  .commaList (fun _ => true) <| .node .declarator <| inOrder
    [name, given (startsWith .eq) (inOrder [.take, .call .expr])]

def typeRef : Act := .node .typeRef <| .look fun ts => inOrder
  [.take,
   qualifiers,
   given (startsWith .lAngle) (.call .typeArgs),
   .look fun us =>
    if startsWithWord "Function" us && kindAt? 1 us == some .lParen then
      inOrder [.take, takeGroup]
    else if startsWithWord "Function" ts && startsWith .lParen us then takeGroup
    else .done,
   eat .question]

def typeArgs : Act := .node .typeArgs <| inOrder
  [.take, .commaList (startsWith .ident) (.call .typeRef), expect .rAngle]

def parameterOrMark : Act := .look fun ts =>
  if startsWithAny [.lBrace, .rBrace, .lBrack, .rBrack, .comma, .requiredKw] ts then .take
  else if startsWith .atSign ts then .call .metadata
  else if startsWithAny [.ident, .thisKw, .superKw, .finalKw, .constKw, .varKw] ts then
    .call .param
  else skipGroup "expected a parameter"

def paramList : Act := .node .paramList <| inOrder
  [expect .lParen, .repeatWhile (before [.rParen]) parameterOrMark, expect .rParen]

def param : Act := .node .param <| inOrder
  [.repeatWhile
    (fun ts => startsWithAny [.finalKw, .constKw, .varKw] ts || startsWithWord "covariant" ts)
    .take,
   .look fun ts =>
    if startsWithAny [.thisKw, .superKw] ts then inOrder [.take, expect .dot, name]
    else inOrder [given (fun us => (typedName? us).isSome) (.call .typeRef), name],
   given (startsWith .lParen) takeGroup,
   given (startsWithAny [.eq, .colon]) (inOrder [.take, .call .expr])]

def bodyMark : Act := .look fun ts =>
  if startsWith .asyncKw ts || startsWithWord "sync" ts then
    inOrder
      [eat .asyncKw,
       given (startsWithWord "sync") .take,
       given (startsWithOperator ["*"]) .take]
  else .done

def functionBody (inExpression : Bool) : Act := inOrder
  [bodyMark,
   .look fun ts =>
    if startsWith .fatArrow ts then
      .node .exprBody <| inOrder
        [.take, .call .expr, if inExpression then .done else expect .semicolon]
    else if startsWith .lBrace ts then .call .block
    else if startsWith .semicolon ts && !inExpression then .take
    else .report "expected a function body"]

def block : Act := .node .block <| inOrder
  [expect .lBrace,
   .repeatWhile (before [.rBrace])
    (.insist (.call .statement) (skipGroup "expected a statement")),
   expect .rBrace]

def guardedBlock : Act := .repeatWhile
  (fun ts => startsWithAny [.lBrace, .lParen] ts || startsWithAnyWord ["catch", "finally", "on"] ts)
  (.look fun ts =>
    if startsWithAny [.lBrace, .lParen] ts then takeGroup
    else if startsWithWord "on" ts then
      inOrder [.take, given (startsWith .ident) (.call .typeRef)]
    else .take)

def wordStatement (ts : List Token) : Act :=
  match typedName? ts with
  | some named =>
    if startsWithAny [.eq, .semicolon, .comma] named.tail then .call .localVar
    else if startsWith .lParen named.tail then
      .node .functionDecl <| inOrder [.call .typeRef, .call .functionRest]
    else .call .exprStmt
  | none => .call .exprStmt

def statement : Act := .look fun ts =>
  if startsWith .lBrace ts then .call .block
  else if startsWith .semicolon ts then .take
  else if startsWith .returnKw ts then
    .node .returnStmt <| inOrder
      [.take,
       .look fun us => if startsWith .semicolon us then .done else .call .expr,
       expect .semicolon]
  else if startsWithAny [.ifKw, .forKw, .whileKw] ts then
    .node .otherStmt <| inOrder
      [.take,
       given (startsWith .lParen) takeGroup,
       .call .statement,
       .repeatWhile (startsWith .elseKw) (inOrder [.take, .call .statement])]
  else if startsWithAny [.tryKw, .switchKw] ts then
    .node .otherStmt <| inOrder [.take, guardedBlock]
  else if startsWithAny [.finalKw, .varKw, .constKw, .lateKw] ts then .call .localVar
  else if startsWith .ident ts then wordStatement ts
  else .call .exprStmt

def localVar : Act := .node .localVar <| inOrder
  [.repeatWhile (startsWithAny [.finalKw, .varKw, .constKw, .lateKw]) .take,
   given (fun ts => (typedName? ts).isSome) (.call .typeRef),
   .call .declarators,
   expect .semicolon]

def exprStmt : Act := .node .exprStmt <| inOrder [.call .expr, expect .semicolon]

def atBinaryOperator (ts : List Token) : Bool :=
  (startsWith .operator ts && !startsWithOperator ["++", "--", "~"] ts) ||
  startsWithAny [.eq, .lAngle, .rAngle, .question, .colon, .dot2] ts ||
  startsWithAnyWord ["as", "is"] ts

/-- Binary operators have no precedence: each one takes all that stands to its left. -/
def expr : Act := .group <| inOrder
  [.call .unary,
   .repeatWhile atBinaryOperator <| .wrap .binExpr <| .look fun ts =>
    if startsWith .ident ts then
      inOrder [.take, eat .bang, given (startsWith .ident) (.call .typeRef)]
    else inOrder [.take, .call .unary]]

def atPrefixOperator (ts : List Token) : Bool :=
  startsWithAny [.bang, .awaitKw] ts || startsWithOperator ["-", "~", "++", "--"] ts

def unary : Act := .look fun ts =>
  if atPrefixOperator ts then .node .prefixExpr <| inOrder [.take, .call .unary]
  else .call .operand

def typedCollection? (ts : List Token) : Option CollectionForm :=
  match (afterTypeArgs? ts).bind kind? with
  | some .lBrack => some .list
  | some .lBrace => some .map
  | _ => none

def atClosure (ts : List Token) : Bool :=
  match afterGroup? 0 ts with
  | some rest => startsWithAny [.fatArrow, .lBrace, .asyncKw] rest
  | none => false

def primary? (ts : List Token) : Option Act :=
  match kind? ts with
  | some .ident | some .thisKw | some .superKw => some nameRef
  | some .string =>
    some (.node .stringLiteral (.repeatWhile (startsWith .string) .take))
  | some .intNumber | some .floatNumber | some .trueKw | some .falseKw | some .nullKw =>
    some (.node .literal .take)
  | some .lBrack => some (.call (.collection .list))
  | some .lBrace => some (.call (.collection .map))
  | some .lAngle => (typedCollection? ts).map fun form => .call (.collection form)
  | some .constKw =>
    match kindAt? 1 ts with
    | some .lBrack | some .lAngle => some (.call (.collection .list))
    | some .lBrace => some (.call (.collection .map))
    | _ => some (.call .newExpr)
  | some .newKw => some (.call .newExpr)
  | some .lParen =>
    if atClosure ts then
      some (.node .closure (inOrder [.call .paramList, .call (.functionBody true)]))
    else
      some (.node .parenExpr (inOrder [.take, .call .expr, expect .rParen]))
  | _ => none

def suffix? (ts : List Token) : Option Act :=
  match kind? ts with
  | some .dot | some .questionDot =>
    if kindAt? 1 ts == some .ident then some (.wrap .memberExpr (inOrder [.take, nameRef]))
    else none
  | some .lParen => some (.wrap .callExpr (.call .argList))
  | some .lAngle =>
    if (afterTypeArgs? ts).bind kind? == some .lParen then
      some (.wrap .callExpr (inOrder [.call .typeArgs, .call .argList]))
    else none
  | some .lBrack => some (.wrap .indexExpr (inOrder [.take, .call .expr, expect .rBrack]))
  | some .bang => some (.wrap .postfixExpr .take)
  | some .operator =>
    if startsWithOperator ["++", "--"] ts then some (.wrap .postfixExpr .take) else none
  | _ => none

def missingExpr : Act := inOrder
  [.report "expected an expression",
   given (before [.rParen, .rBrack, .rBrace, .semicolon, .comma]) (.node .error takeGroup)]

def operand : Act := .group <| .look fun ts =>
  match primary? ts with
  | some primary => inOrder
      [primary,
       .repeatWhile (fun us => (suffix? us).isSome) (.look fun us => (suffix? us).getD .done)]
  | none => missingExpr

def element : Act := inOrder
  [given (startsWithAny [.ifKw, .forKw]) (inOrder [.take, given (startsWith .lParen) takeGroup]),
   eat .dot3,
   .insist (.call .expr) (skipGroup "expected an element")]

def collection (form : CollectionForm) : Act := .node form.nodeKind <| inOrder
  [eat .constKw,
   given (startsWith .lAngle) (.call .typeArgs),
   expect form.opening,
   .commaList (before [form.closing]) element,
   expect form.closing]

def constructorCall : Act := .group <| inOrder
  [nameRef,
   .repeatWhile (followedBy .dot .ident) (.wrap .memberExpr (inOrder [.take, nameRef])),
   .look fun ts =>
    if startsWithAny [.lParen, .lAngle] ts then
      .wrap .callExpr <| inOrder
        [given (startsWith .lAngle) (.call .typeArgs), .call .argList]
    else .report "expected constructor arguments"]

def newExpr : Act := .node .newExpr <| inOrder
  [.take,
   .look fun ts =>
    if startsWith .ident ts then constructorCall else .report "expected a constructor name"]

def argument : Act := .look fun ts =>
  if followedBy .ident .colon ts then
    .node .namedArg <| inOrder [name, .take, .call .expr]
  else .insist (.call .expr) (skipGroup "expected an argument")

def argList : Act := .node .argList <| inOrder
  [expect .lParen, .commaList (before [.rParen]) argument, expect .rParen]

def body : Rule → Act
  | .item => item
  | .importDirective => importDirective
  | .directive => directive
  | .metadata => metadata
  | .unsupportedItem => unsupportedItem
  | .classDecl => classDecl
  | .member owner => member owner
  | .declaration owner => declaration owner
  | .constructorRest => constructorRest
  | .functionRest => functionRest
  | .declarators => declarators
  | .typeRef => typeRef
  | .typeArgs => typeArgs
  | .paramList => paramList
  | .param => param
  | .functionBody inExpression => functionBody inExpression
  | .block => block
  | .statement => statement
  | .localVar => localVar
  | .exprStmt => exprStmt
  | .expr => expr
  | .unary => unary
  | .operand => operand
  | .collection form => collection form
  | .newExpr => newExpr
  | .argList => argList

def file : Act :=
  .repeatWhile (fun ts => !ts.isEmpty)
    (.insist (.call .item) (skipGroup "expected a declaration"))

end Grammar

end CrossReference.Source
