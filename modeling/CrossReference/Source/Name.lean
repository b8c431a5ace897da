import CrossReference.Source.Node

/-!
Names in a tree: what a declaration introduces, what a reference says, and the type a declaration is
written with.
-/

namespace CrossReference.Source.Node

def firstWord? (n : Node) : Option String :=
  (n.tokens.find? (·.kind == .ident)).map Token.text

def declName? (n : Node) : Option String :=
  if n.kind.isDeclaration then (n.child? .name).bind firstWord? else none

def isNamed (name : String) (n : Node) : Bool := n.declName? == some name

def refName? (n : Node) : Option String :=
  if n.kind = .nameRef then (n.tokens.find? (!·.isTrivia)).map Token.text else none

/-- The head of the type a declaration is written with. A declarator's type stands on the
declaration around it. -/
def declaredType? (n : Node) : Option String := do
  let holder ← if n.kind = .declarator then n.parent? else some n
  (← holder.child? .typeRef).firstWord?

end CrossReference.Source.Node
