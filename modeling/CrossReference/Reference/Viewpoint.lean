import CrossReference.Project.Basic
import CrossReference.Symbols.Resolution

namespace CrossReference

open Source (Node)

structure Viewpoint where
  project : Project
  store : FileStore
  index : Declarations
  file : FileId
  path : Path

namespace Viewpoint

def settings (view : Viewpoint) : Settings := view.project.settings

def catalogPath (view : Viewpoint) : Path := view.project.catalogPath view.path

def locate (view : Viewpoint) (n : Node) : Located := ⟨view.file, n⟩

end Viewpoint

end CrossReference
