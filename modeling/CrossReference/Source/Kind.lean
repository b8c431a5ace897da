/-!
The kinds of tokens and of tree nodes. Trivia are the tokens the grammar never looks at: blanks and
comments. `label` is the name a kind has in reports.
-/

namespace CrossReference.Source

inductive TokenKind where
  | whitespace | comment | ident | string | intNumber | floatNumber | importKw | exportKw
  | libraryKw | partKw | classKw | abstractKw | extendsKw | withKw | implementsKw | staticKw
  | finalKw | constKw | varKw | lateKw | newKw | returnKw | trueKw | falseKw | nullKw | thisKw
  | superKw | requiredKw | factoryKw | asyncKw | awaitKw | ifKw | elseKw | forKw | whileKw
  | switchKw | tryKw | lParen | rParen | lBrace | rBrace | lBrack | rBrack | lAngle | rAngle
  | comma | semicolon | dot | dot2 | dot3 | questionDot | colon | question | eq | fatArrow
  | atSign | bang | operator | errorToken
deriving DecidableEq

namespace TokenKind

def isTrivia : TokenKind → Bool
  | whitespace | comment => true
  | _ => false

def isOpener : TokenKind → Bool
  | lParen | lBrack | lBrace => true
  | _ => false

def isCloser : TokenKind → Bool
  | rParen | rBrack | rBrace => true
  | _ => false

def label : TokenKind → String
  | whitespace => "WHITESPACE"
  | comment => "COMMENT"
  | ident => "IDENT"
  | string => "STRING"
  | intNumber => "INT_NUMBER"
  | floatNumber => "FLOAT_NUMBER"
  | importKw => "IMPORT_KW"
  | exportKw => "EXPORT_KW"
  | libraryKw => "LIBRARY_KW"
  | partKw => "PART_KW"
  | classKw => "CLASS_KW"
  | abstractKw => "ABSTRACT_KW"
  | extendsKw => "EXTENDS_KW"
  | withKw => "WITH_KW"
  | implementsKw => "IMPLEMENTS_KW"
  | staticKw => "STATIC_KW"
  | finalKw => "FINAL_KW"
  | constKw => "CONST_KW"
  | varKw => "VAR_KW"
  | lateKw => "LATE_KW"
  | newKw => "NEW_KW"
  | returnKw => "RETURN_KW"
  | trueKw => "TRUE_KW"
  | falseKw => "FALSE_KW"
  | nullKw => "NULL_KW"
  | thisKw => "THIS_KW"
  | superKw => "SUPER_KW"
  | requiredKw => "REQUIRED_KW"
  | factoryKw => "FACTORY_KW"
  | asyncKw => "ASYNC_KW"
  | awaitKw => "AWAIT_KW"
  | ifKw => "IF_KW"
  | elseKw => "ELSE_KW"
  | forKw => "FOR_KW"
  | whileKw => "WHILE_KW"
  | switchKw => "SWITCH_KW"
  | tryKw => "TRY_KW"
  | lParen => "L_PAREN"
  | rParen => "R_PAREN"
  | lBrace => "L_BRACE"
  | rBrace => "R_BRACE"
  | lBrack => "L_BRACK"
  | rBrack => "R_BRACK"
  | lAngle => "L_ANGLE"
  | rAngle => "R_ANGLE"
  | comma => "COMMA"
  | semicolon => "SEMICOLON"
  | dot => "DOT"
  | dot2 => "DOT2"
  | dot3 => "DOT3"
  | questionDot => "QUESTION_DOT"
  | colon => "COLON"
  | question => "QUESTION"
  | eq => "EQ"
  | fatArrow => "FAT_ARROW"
  | atSign => "AT"
  | bang => "BANG"
  | operator => "OPERATOR"
  | errorToken => "ERROR_TOKEN"

/-- The reserved words. Every other word is an identifier, also `get`, `set` and `as`. -/
def keywords : List (String × TokenKind) :=
  [("import", importKw), ("export", exportKw), ("library", libraryKw), ("part", partKw),
   ("class", classKw), ("abstract", abstractKw), ("extends", extendsKw), ("with", withKw),
   ("implements", implementsKw), ("static", staticKw), ("final", finalKw), ("const", constKw),
   ("var", varKw), ("late", lateKw), ("new", newKw), ("return", returnKw),
   ("true", trueKw), ("false", falseKw), ("null", nullKw), ("this", thisKw),
   ("super", superKw), ("required", requiredKw), ("factory", factoryKw), ("async", asyncKw),
   ("await", awaitKw), ("if", ifKw), ("else", elseKw), ("for", forKw),
   ("while", whileKw), ("switch", switchKw), ("try", tryKw)]

def ofWord (word : String) : TokenKind :=
  (keywords.lookup word).getD ident

end TokenKind

inductive NodeKind where
  | sourceFile | importDirective | directive | metadata | classDecl | classBody | fieldDecl
  | declarator | methodDecl | getterDecl | constructorDecl | functionDecl | topLevelVar
  | paramList | param | typeRef | typeArgs | name | nameRef | exprBody | block | returnStmt
  | localVar | exprStmt | otherStmt | memberExpr | callExpr | argList | namedArg | newExpr
  | closure | parenExpr | indexExpr | prefixExpr | postfixExpr | binExpr | stringLiteral
  | literal | listLiteral | mapLiteral | error
deriving DecidableEq

namespace NodeKind

def isExpr : NodeKind → Bool
  | nameRef | memberExpr | callExpr | newExpr | closure | parenExpr | indexExpr | prefixExpr
  | postfixExpr | binExpr | stringLiteral | literal | listLiteral | mapLiteral => true
  | _ => false

def isDeclaration : NodeKind → Bool
  | classDecl | declarator | methodDecl | getterDecl | constructorDecl | functionDecl
  | param => true
  | _ => false

def label : NodeKind → String
  | sourceFile => "SOURCE_FILE"
  | importDirective => "IMPORT_DIRECTIVE"
  | directive => "DIRECTIVE"
  | metadata => "ANNOTATION"
  | classDecl => "CLASS_DECL"
  | classBody => "CLASS_BODY"
  | fieldDecl => "FIELD_DECL"
  | declarator => "VARIABLE"
  | methodDecl => "METHOD_DECL"
  | getterDecl => "GETTER_DECL"
  | constructorDecl => "CONSTRUCTOR_DECL"
  | functionDecl => "FUNCTION_DECL"
  | topLevelVar => "TOP_LEVEL_VAR"
  | paramList => "PARAM_LIST"
  | param => "PARAM"
  | typeRef => "TYPE_REF"
  | typeArgs => "TYPE_ARGS"
  | name => "NAME"
  | nameRef => "NAME_REF"
  | exprBody => "EXPR_BODY"
  | block => "BLOCK"
  | returnStmt => "RETURN_STMT"
  | localVar => "LOCAL_VAR"
  | exprStmt => "EXPR_STMT"
  | otherStmt => "OTHER_STMT"
  | memberExpr => "MEMBER_EXPR"
  | callExpr => "CALL_EXPR"
  | argList => "ARG_LIST"
  | namedArg => "NAMED_ARG"
  | newExpr => "NEW_EXPR"
  | closure => "CLOSURE"
  | parenExpr => "PAREN_EXPR"
  | indexExpr => "INDEX_EXPR"
  | prefixExpr => "PREFIX_EXPR"
  | postfixExpr => "POSTFIX_EXPR"
  | binExpr => "BIN_EXPR"
  | stringLiteral => "STRING_LITERAL"
  | literal => "LITERAL"
  | listLiteral => "LIST_LITERAL"
  | mapLiteral => "MAP_LITERAL"
  | error => "ERROR"

end NodeKind

end CrossReference.Source
