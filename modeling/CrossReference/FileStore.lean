import CrossReference.Path
import CrossReference.Table

/-!
The files in memory. A path gets an id when it is first seen and keeps it, with its first spelling,
until it is removed; ids are never given out twice.

Ids are natural numbers. A counter of 32 bits has them up to `UInt32.size`, so a store stands for
one in which fewer paths than that were registered. One change is made after the other: the lock
that sees to this is left out.
-/

namespace CrossReference

structure FileId where
  index : Nat
deriving DecidableEq

/-- `entries` are the registered files in their order, and `ids` leads back to them from the
components of their paths; a text may also be stored under an id that is not registered. -/
structure FileStore where
  entries : Table FileId Path
  ids : Table (List Component) FileId
  texts : Table FileId String
  next : Nat

namespace FileStore

def empty : FileStore := ⟨[], [], [], 0⟩

def lookup? (store : FileStore) (path : Path) : Option FileId := store.ids.get? path.components

def path? (store : FileStore) (file : FileId) : Option Path := store.entries.get? file

def files (store : FileStore) : List FileId := store.entries.map Prod.fst

def size (store : FileStore) : Nat := store.ids.length

def register (store : FileStore) (path : Path) : FileId × FileStore :=
  match store.lookup? path with
  | some file => (file, store)
  | none =>
    (⟨store.next⟩,
      { store with
        entries := store.entries.put ⟨store.next⟩ path
        ids := store.ids.put path.components ⟨store.next⟩
        next := store.next + 1 })

def contents? (store : FileStore) (file : FileId) : Option String := store.texts.get? file

def setContents (store : FileStore) (file : FileId) (text : String) : FileStore :=
  { store with texts := store.texts.put file text }

def insert (store : FileStore) (path : Path) (text : String) : FileId × FileStore :=
  let (file, registered) := store.register path
  (file, registered.setContents file text)

def edit? (store : FileStore) (file : FileId) (change : String → Option String) :
    Option FileStore := do
  let text ← store.contents? file
  return store.setContents file (← change text)

/-- Takes an entry out; the last one comes into its place. -/
def swapRemove (file : FileId) : Table FileId Path → Table FileId Path
  | [] => []
  | e :: rest =>
    if e.1 = file then
      match rest.getLast? with
      | some last => last :: rest.dropLast
      | none => []
    else e :: swapRemove file rest

def unregister (store : FileStore) (file : FileId) : FileStore :=
  match store.path? file with
  | some path =>
    { store with
      entries := swapRemove file store.entries
      ids := store.ids.erase path.components }
  | none => store

def remove (store : FileStore) (file : FileId) : FileStore :=
  let rest := store.unregister file
  { rest with texts := rest.texts.erase file }

def contains (store : FileStore) (path : Path) : Bool := (store.lookup? path).isSome

def read? (store : FileStore) (path : Path) : Option String :=
  (store.lookup? path).bind store.contents?

end FileStore

end CrossReference
