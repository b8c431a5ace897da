import CrossReference.Source.Name
import CrossReference.Text.Identifier

/-!
The shapes references are read off: chains of names, calls, lists, and what a declaration yields.
-/

namespace CrossReference.Source

structure Segment where
  name : String
  ref : Node
  call : Option Node

namespace Node

def callLast? (call : Node) : List Segment → Option (List Segment)
  | [] => none
  | [s] => if s.call.isSome then none else some [{ s with call := some call }]
  | s :: rest => (callLast? call rest).map (s :: ·)

def refSegment? (n : Node) : Option Segment :=
  match n.refName? with
  | some name => if Text.isIdentifier name then some ⟨name, n, none⟩ else none
  | none => none

/-- The names of a chain such as `a.b(x).c`, in order. Every receiver is a name, called at most
once. -/
def chain? (n : Node) : Option (List Segment) :=
  match n.kind with
  | .nameRef => n.refSegment?.map ([·])
  | .memberExpr =>
    match _ : n.exprs with
    | receiver :: member :: _ =>
      if member.kind = .nameRef then do
        let segments ← receiver.chain?
        return segments ++ [← member.refSegment?]
      else none
    | _ => none
  | .callExpr =>
    match _ : n.exprs with
    | callee :: _ =>
      if callee.kind = .nameRef ∨ callee.kind = .memberExpr then
        callee.chain?.bind (callLast? n)
      else none
    | [] => none
  | _ => none
termination_by n.depth
decreasing_by all_goals exact depth_lt_of_mem_exprs (by simp [*])

def underNew? (n : Node) : Option Node := if n.kind = .newExpr then n.firstExpr? else some n

def callOf? (n : Node) : Option Node := n.underNew?.filter (·.kind == .callExpr)

def callArgs? (n : Node) : Option (List Node) := do
  let args ← (← n.callOf?).child? .argList
  if args.exprs.isEmpty then none else some args.exprs

def listElements? (n : Node) : Option (List Node) :=
  if n.kind = .listLiteral then some n.exprs else none

def bodyValue? (body : Node) : Option Node :=
  if body.kind = .exprBody then body.firstExpr?
  else match body.children with
    | [only] => if only.kind = .returnStmt then only.firstExpr? else none
    | _ => none

def yielded? (n : Node) : Option Node :=
  match n.kind with
  | .declarator => n.firstExpr?
  | .getterDecl | .methodDecl | .functionDecl | .closure =>
    (n.children.find? fun c => c.kind == .exprBody || c.kind == .block).bind bodyValue?
  | _ => none

def continuesChain (parent child : Node) : Bool :=
  match parent.kind with
  | .memberExpr => true
  | .callExpr =>
    match parent.firstExpr? with
    | some callee => callee.isSame child
    | none => false
  | _ => false

def climb (n : Node) : List Node → Node
  | [] => n
  | parent :: rest => if parent.continuesChain n then climb parent rest else n

def chainRoot (n : Node) : Node := climb n n.strictAncestors

end Node

end CrossReference.Source
