import CrossReference.FileStore
import CrossReference.Source.Declaration

/-!
The top-level declarations of all files by name. Declarations of one name stand in the order in
which their files were added last, and within a file in source order.
-/

namespace CrossReference

open Source (Node)

structure Located where
  file : FileId
  node : Node

/-- `names` are the names each file has declared, one for each declaration. -/
structure Declarations where
  roots : Table FileId Node
  byName : Table String (List Located)
  names : Table FileId (List String)

namespace Declarations

def empty : Declarations := ⟨[], [], []⟩

def lookup (index : Declarations) (name : String) : List Located := (index.byName.get? name).getD []

def lookupClass? (index : Declarations) (name : String) : Option Located :=
  (index.lookup name).find? (·.node.kind == .classDecl)

def root? (index : Declarations) (file : FileId) : Option Node := index.roots.get? file

def fileOf? (index : Declarations) (l : Located) : Option FileId :=
  if index.roots.contains l.file then some l.file else none

def files (index : Declarations) : List FileId := index.roots.map Prod.fst

def size (index : Declarations) : Nat := index.byName.length

def dropName (file : FileId) (byName : Table String (List Located)) (name : String) :
    Table String (List Located) :=
  match byName.get? name with
  | some decls =>
    let kept := decls.filter (·.file ≠ file)
    if kept.isEmpty then byName.erase name else byName.put name kept
  | none => byName

def removeFile (index : Declarations) (file : FileId) : Declarations :=
  if index.roots.contains file then
    { roots := index.roots.erase file
      byName := ((index.names.get? file).getD []).foldl (dropName file) index.byName
      names := index.names.erase file }
  else index

def declared (file : FileId) (root : Node) : List (String × Located) :=
  root.topLevelDecls.filterMap fun decl => decl.declName?.map (·, ⟨file, decl⟩)

def addName (byName : Table String (List Located)) (entry : String × Located) :
    Table String (List Located) :=
  byName.put entry.1 ((byName.get? entry.1).getD [] ++ [entry.2])

def addFile (index : Declarations) (file : FileId) (root : Node) : Declarations :=
  let rest := index.removeFile file
  { roots := rest.roots ++ [(file, root)]
    byName := (declared file root).foldl addName rest.byName
    names := rest.names.put file ((declared file root).map Prod.fst) }

end Declarations

end CrossReference
