import CrossReference.Reference.Image
import CrossReference.Reference.Localization
import CrossReference.Text.Position

/-!
What an editor shows in a file: localization references folded to their text, and image references
as links to their files.
-/

namespace CrossReference

open Source (Node)
open Text (Range Position LineTable)

structure Fold where
  range : Range
  start : Position
  stop : Position
  placeholder : String
deriving DecidableEq

structure Link where
  range : Range
  start : Position
  stop : Position
  target : Path
  tooltip : String
deriving DecidableEq

namespace Viewpoint

def fold? (view : Viewpoint) (lines : LineTable) (n : Node) : Option Fold :=
  if n.kind = .memberExpr ∨ n.kind = .callExpr then
    (view.localized? n).map fun text =>
      ⟨n.range, lines.position n.start, lines.position n.stop, text⟩
  else none

/-- The folds of a file. What is inside a folded reference is already part of its text. -/
def folds (view : Viewpoint) (root : Node) (lines : LineTable) : List Fold :=
  root.outermost (view.fold? lines)

def tooltip (view : Viewpoint) (target : Path) : String :=
  "Open " ++ ((target.relativeTo? view.project.root).getD target).text

def link? (view : Viewpoint) (lines : LineTable) (n : Node) : Option Link :=
  if n.kind = .memberExpr then
    (view.imageFile? n).map fun target =>
      ⟨n.range, lines.position n.start, lines.position n.stop, target, view.tooltip target⟩
  else none

def links (view : Viewpoint) (root : Node) (lines : LineTable) : List Link :=
  root.outermost (view.link? lines)

end Viewpoint

end CrossReference
