import CrossReference.Symbols.Declarations

/-!
What a name refers to. A plain name is looked up in the scopes around it and then at the top level
of all files; the member of a receiver is looked up in the class the receiver denotes. The class of
a receiver is followed through a bounded number of receivers.
-/

namespace CrossReference

open Source (Node)

namespace Source.Node

def isMemberName (ref parent : Node) : Bool :=
  parent.kind == .memberExpr && !(parent.firstExpr?.any (·.isSame ref))

def declIn? (name : String) (scope : Node) : Option Node :=
  match scope.kind with
  | .block => scope.blockDecls.find? (·.isNamed name)
  | .methodDecl | .functionDecl | .constructorDecl | .closure =>
    scope.params.find? (·.isNamed name)
  | .classDecl => scope.findMember? name
  | .sourceFile => scope.topLevelDecls.find? (·.isNamed name)
  | _ => none

def trailingRef? (n : Node) : Option Node := (n.childrenOf .nameRef).getLast?

end Source.Node

namespace Located

def kind (l : Located) : Source.NodeKind := l.node.kind

def beside (l : Located) (node : Node) : Located := ⟨l.file, node⟩

def enclosingClass? (l : Located) : Option Located := l.node.enclosingClass?.map l.beside

end Located

namespace Declarations

def typingDepth : Nat := 16

def resolveLexically? (index : Declarations) (ref : Located) (name : String) : Option Located :=
  match ref.node.ancestors.findSome? (Node.declIn? name) with
  | some decl => some (ref.beside decl)
  | none => (index.lookup name).head?

/-- Resolves a name, where `classOf` gives the class a receiver denotes. -/
def resolveWith? (index : Declarations) (classOf : Located → Option Located) (ref : Located) :
    Option Located := do
  let name ← ref.node.refName?
  let parent ← ref.node.parent?
  if ref.node.isMemberName parent then
    let cls ← classOf (ref.beside (← parent.firstExpr?))
    (cls.node.findMember? name).map cls.beside
  else if name = "this" then ref.enclosingClass?
  else index.resolveLexically? ref name

def typingValue? (decl : Node) : Option Node :=
  match decl.kind with
  | .declarator => decl.firstExpr?
  | .getterDecl => (decl.child? .exprBody).bind Node.firstExpr?
  | _ => none

def classOfDecl? (index : Declarations) (classOf : Located → Option Located) (decl : Located) :
    Option Located :=
  match decl.kind with
  | .classDecl => some decl
  | .constructorDecl => decl.enclosingClass?
  | _ =>
    match decl.node.declaredType? with
    | some name => index.lookupClass? name
    | none => (typingValue? decl.node).bind fun value => classOf (decl.beside value)

def classOfCallee? (index : Declarations) (decl : Located) : Option Located :=
  match decl.kind with
  | .classDecl => some decl
  | .constructorDecl => decl.enclosingClass?
  | _ => decl.node.declaredType?.bind index.lookupClass?

def calleeName? (callee : Node) : Option Node :=
  match callee.kind with
  | .nameRef => some callee
  | .memberExpr => callee.trailingRef?
  | _ => none

def classOfExpr? (index : Declarations) (classOf : Located → Option Located) (expr : Located) :
    Option Located :=
  match expr.kind with
  | .nameRef => do index.classOfDecl? classOf (← index.resolveWith? classOf expr)
  | .memberExpr => do
    let member ← expr.node.trailingRef?
    index.classOfDecl? classOf (← index.resolveWith? classOf (expr.beside member))
  | .callExpr => do
    let callee ← calleeName? (← expr.node.firstExpr?)
    index.classOfCallee? (← index.resolveWith? classOf (expr.beside callee))
  | .newExpr | .parenExpr => do classOf (expr.beside (← expr.node.firstExpr?))
  | _ => none

def classOf? (index : Declarations) : (depth : Nat) → Located → Option Located
  | 0, _ => none
  | depth + 1, expr => index.classOfExpr? (index.classOf? depth) expr

def resolveWithin? (index : Declarations) (depth : Nat) (ref : Located) : Option Located :=
  if ref.kind = .nameRef then index.resolveWith? (index.classOf? depth) ref else none

def resolve? (index : Declarations) (ref : Located) : Option Located :=
  index.resolveWithin? typingDepth ref

end Declarations

end CrossReference
