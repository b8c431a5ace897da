import CrossReference.FileStore
import CrossReference.Json.Read
import CrossReference.Text.Blank
import CrossReference.Text.Range

/-!
Message catalogs. Entries are the members of the top-level object that are strings; of members
with the same key the last one counts, whatever it is.
-/

namespace CrossReference

open Text (Range)

inductive CatalogError where
  | missing (path : Path)
  | malformed
  | notAnObject
deriving DecidableEq

namespace CatalogError

def message? : CatalogError → Option String
  | .missing path => some ("catalog not found: " ++ path.text)
  | .malformed => none
  | .notAnObject => some "catalog is not a JSON object"

end CatalogError

structure Catalog where
  entries : Table String String

namespace Catalog

def lastValues (members : List (List Char × Json)) : Table String Json :=
  members.foldl
    (fun table (key, value) =>
      match Json.Text.decode? key with
      | some k => table.put (String.ofList k) value
      | none => table) []

def parse (text : String) : Except CatalogError Catalog :=
  match Json.read? text with
  | none => .error .malformed
  | some document =>
    if document.isStrict then
      match document with
      | .object members =>
        .ok ⟨(lastValues members).filterMap fun (key, value) => value.text?.map (key, ·)⟩
      | _ => .error .notAnObject
    else .error .malformed

def load (store : FileStore) (path : Path) : Except CatalogError Catalog :=
  match store.read? path with
  | some text => parse text
  | none => .error (.missing path)

def get? (catalog : Catalog) (key : String) : Option String := catalog.entries.get? key

def size (catalog : Catalog) : Nat := catalog.entries.length

/-- Where a scan of a catalog stands: between strings, or in the one that started at `start`, with
what it read so far, latest first. -/
inductive Scan where
  | between
  | within (start : Nat) (read : List Char) (escaped : Bool)

def depthAfter (depth : Nat) (c : Char) : Nat :=
  if c = '{' ∨ c = '[' then depth + 1
  else if c = '}' ∨ c = ']' then depth - 1
  else depth

def scanKey (key : List Char) : Scan → (depth offset : Nat) → List Char → Option Range
  | _, _, _, [] => none
  | .between, depth, offset, c :: cs =>
    if c = '"' then scanKey key (.within offset [] false) depth (offset + 1) cs
    else scanKey key .between (depthAfter depth c) (offset + c.utf8Size) cs
  | .within start read true, depth, offset, c :: cs =>
    scanKey key (.within start (c :: read) false) depth (offset + c.utf8Size) cs
  | .within start read false, depth, offset, c :: cs =>
    if c = '"' then
      if depth = 1 ∧ read.reverse = key ∧ (Text.trimStart cs).head? = some ':' then
        some ⟨start, offset + 1⟩
      else scanKey key .between depth (offset + 1) cs
    else scanKey key (.within start (c :: read) (c == '\\')) depth (offset + c.utf8Size) cs

/-- Where a key of the top-level object is written, quotes included. Keys are compared as they are
written, escapes and all. -/
def keyRange? (text key : String) : Option Range := scanKey key.toList .between 0 0 text.toList

end Catalog

end CrossReference
