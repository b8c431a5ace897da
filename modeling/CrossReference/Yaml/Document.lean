import CrossReference.Table
import CrossReference.Yaml.Read

/-!
Documents: a node and the nodes its references stand for. References are followed while a document
is read and not before, so that a node may refer to one that holds it; how often they may be
followed is limited by the size of the document.
-/

namespace CrossReference.Yaml

mutual

def size : Yaml → Nat
  | .scalar _ => 1
  | .reference _ => 1
  | .anchored _ node => node.size
  | .sequence _ items => itemsSize items + 2
  | .mapping _ entries => entriesSize entries + 2

def itemsSize : List Yaml → Nat
  | [] => 0
  | item :: items => item.size + itemsSize items

def entriesSize : List (Yaml × Yaml) → Nat
  | [] => 0
  | (key, value) :: entries => key.size + value.size + entriesSize entries

end

mutual

/-- The nodes with an anchor inside a node; of two with the same number the later one stays. -/
def anchors (table : Table Nat Yaml) : Yaml → Table Nat Yaml
  | .scalar _ => table
  | .reference _ => table
  | .anchored number node => anchors (table.put number node) node
  | .sequence _ items => itemsAnchors table items
  | .mapping _ entries => entriesAnchors table entries

def itemsAnchors (table : Table Nat Yaml) : List Yaml → Table Nat Yaml
  | [] => table
  | item :: items => itemsAnchors (anchors table item) items

def entriesAnchors (table : Table Nat Yaml) : List (Yaml × Yaml) → Table Nat Yaml
  | [] => table
  | (key, value) :: entries => entriesAnchors (anchors (anchors table key) value) entries

end

namespace Scalar

def isNullWord (text : String) : Bool := ["~", "null", "Null", "NULL"].contains text

def flagWord? (text : String) : Option Bool :=
  if ["true", "True", "TRUE"].contains text then some true
  else if ["false", "False", "FALSE"].contains text then some false
  else none

/-- Whether a scalar stands for no value: nothing or a word for it is written plain without a tag.
A tag for it needs such a word. -/
def isAbsent? (s : Scalar) : Option Bool :=
  if s.style ≠ .plain then some false
  else match s.tag with
    | none => some (s.text.isEmpty || isNullWord s.text)
    | some .null => if isNullWord s.text then some true else none
    | some _ => some false

def isEmpty (s : Scalar) : Bool := s.style == .plain && s.text.isEmpty

end Scalar

structure Document where
  root : Yaml
  anchors : Table Nat Yaml

abbrev Reading := StateT Nat Option

namespace Document

def ofRoot (root : Yaml) : Document := ⟨root, root.anchors []⟩

def read? (text : String) : Option Document := (Yaml.read? text).map ofRoot

/-- References are followed at most a hundred times for each part of the document. -/
def run? {α : Type} (doc : Document) (reading : Reading α) : Option α :=
  reading.run' (100 * doc.root.size)

def node (doc : Document) : Yaml → Reading Yaml
  | .reference number => do
    match ← get with
    | 0 => failure
    | left + 1 =>
      set left
      doc.anchors.get? number
  | .anchored _ node => return node
  | node => return node

def text (doc : Document) (y : Yaml) : Reading String := do
  match ← doc.node y with
  | .scalar s => return s.text
  | _ => failure

def flag (doc : Document) (y : Yaml) : Reading Bool := do
  match ← doc.node y with
  | .scalar s =>
    if s.style = .plain ∨ (s.style = .literal ∧ s.tag = some .bool) then Scalar.flagWord? s.text
    else failure
  | _ => failure

def optional (doc : Document) (y : Yaml) : Reading (Option Yaml) := do
  match ← doc.node y with
  | .scalar s => return if ← s.isAbsent? then none else some (.scalar s)
  | node => return some node

def items (doc : Document) (y : Yaml) : Reading (List Yaml) := do
  match ← doc.node y with
  | .sequence _ items => return items
  | .scalar s => if s.isEmpty then return [] else failure
  | _ => failure

def entries (doc : Document) (y : Yaml) : Reading (List (String × Yaml)) := do
  match ← doc.node y with
  | .mapping _ entries => entries.mapM fun (key, value) => return (← doc.text key, value)
  | .scalar s => if s.isEmpty then return [] else failure
  | _ => failure

end Document

end CrossReference.Yaml
