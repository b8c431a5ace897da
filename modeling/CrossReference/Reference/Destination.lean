import CrossReference.Reference.Image
import CrossReference.Reference.Localization
import CrossReference.Reference.Route

/-!
Where the reference at a byte leads: a route path to its page, an image reference to its file, a
localization reference to its key, and any other name to its declaration.
-/

namespace CrossReference

open Source (Node)
open Text (Range)

inductive Destination where
  | declaration (file : FileId) (full focus : Range) (name : Option String)
  | file (path : Path)
  | fileRange (path : Path) (range : Range)
deriving DecidableEq

namespace Destination

def ofDecl? (index : Declarations) (decl : Located) : Option Destination := do
  let file ← index.fileOf? decl
  let focus := ((decl.node.child? .name).map Node.range).getD decl.node.range
  return .declaration file decl.node.range focus decl.node.declName?

end Destination

namespace Source.Node

def leavesAt (root : Node) (offset : Nat) : List Leaf :=
  root.leaves.filter fun l => l.start ≤ offset && offset ≤ l.stop

/-- The significant token at a byte; of two, the one that starts there unless it is trivia. -/
def significantAt? (root : Node) (offset : Nat) : Option Leaf :=
  let chosen := match root.leavesAt offset with
    | [left, right] => some (if right.token.isTrivia then left else right)
    | l :: _ => some l
    | [] => none
  chosen.filter (!·.token.isTrivia)

end Source.Node

namespace Viewpoint

def nameDestination? (view : Viewpoint) (ref : Node) : Option Destination :=
  match view.imageFile? ref.chainRoot with
  | some asset => some (.file asset)
  | none =>
    match view.locateKey? ref.chainRoot with
    | some (path, range) => some (.fileRange path range)
    | none => do Destination.ofDecl? view.index (← view.index.resolve? (view.locate ref))

def destination? (view : Viewpoint) (root : Node) (offset : Nat) : Option Destination := do
  let leaf ← root.significantAt? offset
  match leaf.parent.kind with
  | .stringLiteral => Destination.ofDecl? view.index (← view.routePage? leaf.parent)
  | .nameRef => view.nameDestination? leaf.parent
  | _ => none

end Viewpoint

end CrossReference
