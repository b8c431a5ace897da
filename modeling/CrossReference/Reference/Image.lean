import CrossReference.Reference.Asset
import CrossReference.Reference.Viewpoint
import CrossReference.Source.Literal
import CrossReference.Source.Form

/-!
Image references: three names, the first a resource namespace, the last declared with the logical
path of an asset.
-/

namespace CrossReference.Viewpoint

open Source (Node)

def imageLeaf? (view : Viewpoint) (n : Node) : Option Node :=
  match n.chain? with
  | some [first, second, last] =>
    if first.call.isNone && second.call.isNone && last.call.isNone &&
        view.settings.isResourceNamespace first.name then some last.ref
    else none
  | _ => none

def logicalPath? (decl : Node) : Option String :=
  if decl.kind = .getterDecl ∨ decl.kind = .declarator then
    decl.yielded?.bind Node.stringValue?
  else none

def imageFile? (view : Viewpoint) (n : Node) : Option Path := do
  if !view.project.recognized then none
  let leaf ← view.imageLeaf? n
  let decl ← view.index.resolve? (view.locate leaf)
  let logical ← logicalPath? decl.node
  Asset.locate? view.store.contains view.project.root logical view.settings.densityVariants

end CrossReference.Viewpoint
