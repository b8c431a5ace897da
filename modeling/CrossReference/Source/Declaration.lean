import CrossReference.Source.Name

/-!
The declarations a scope brings into view. A declaration of several variables contributes each of
its declarators.
-/

namespace CrossReference.Source.Node

def topLevelDecls (root : Node) : List Node :=
  root.children.flatMap fun item =>
    match item.kind with
    | .topLevelVar => item.childrenOf .declarator
    | .classDecl | .functionDecl | .getterDecl => [item]
    | _ => []

def classMembers (cls : Node) : List Node :=
  ((cls.childrenOf .classBody).flatMap children).flatMap fun member =>
    match member.kind with
    | .fieldDecl => member.childrenOf .declarator
    | .methodDecl | .getterDecl | .constructorDecl => [member]
    | _ => []

def findMember? (cls : Node) (name : String) : Option Node :=
  cls.classMembers.find? fun m => m.kind != .constructorDecl && m.isNamed name

def blockDecls (block : Node) : List Node :=
  block.children.flatMap fun stmt =>
    match stmt.kind with
    | .localVar => stmt.childrenOf .declarator
    | .functionDecl => [stmt]
    | _ => []

def params (function : Node) : List Node :=
  ((function.childrenOf .paramList).flatMap children).filter (·.kind == .param)

def enclosingClass? (n : Node) : Option Node := n.strictAncestors.find? (·.kind == .classDecl)

end CrossReference.Source.Node
