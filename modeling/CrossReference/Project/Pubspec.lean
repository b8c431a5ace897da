import CrossReference.Project.Settings
import CrossReference.Text.Blank
import CrossReference.Yaml.Value

/-!
The package file of a project: the packages it depends on, and its section of settings.
-/

namespace CrossReference

def Settings.yamlReader (doc : Yaml.Document) : Settings.Reader Yaml.Reading Yaml where
  text := doc.text
  flag := doc.flag
  texts y := do (← doc.items y).mapM doc.text
  optional := doc.optional
  table y := do
    (← doc.entries y).foldlM (fun table (key, value) => return table.put key (← doc.text value)) []

def Settings.ofYaml (doc : Yaml.Document) (y : Yaml) : Yaml.Reading Settings := do
  ofMembers (yamlReader doc) (← named? (← doc.entries y))

structure Pubspec where
  dependencies : List String
  settings : Option Settings

namespace Pubspec

def empty : Pubspec := ⟨[], none⟩

inductive Key where
  | name | dependencies | settings
deriving DecidableEq

def Key.ofText? (text : String) : Option Key :=
  if text = "name" then some .name
  else if text = "dependencies" then some .dependencies
  else if text = "xref" then some .settings
  else none

def set (doc : Yaml.Document) (pubspec : Pubspec) (key : Key) (value : Yaml) :
    Yaml.Reading Pubspec := do
  match key with
  | .name =>
    if let some value ← doc.optional value then discard (doc.text value)
    return pubspec
  | .dependencies =>
    let entries ← doc.entries value
    -- The file and its list of packages are collections around the values.
    discard (entries.mapM fun (_, value) => doc.value (Yaml.maxDepth - 2) value)
    return { pubspec with dependencies := entries.map Prod.fst }
  | .settings =>
    match ← doc.optional value with
    | none => return { pubspec with settings := none }
    | some value => return { pubspec with settings := some (← Settings.ofYaml doc value) }

def ofEntries (doc : Yaml.Document) :
    List Key → Pubspec → List (String × Yaml) → Yaml.Reading Pubspec
  | _, pubspec, [] => return pubspec
  | seen, pubspec, (key, value) :: rest =>
    match Key.ofText? key with
    | none => ofEntries doc seen pubspec rest
    | some k =>
      if k ∈ seen then failure
      else do ofEntries doc (k :: seen) (← set doc pubspec k value) rest

def parse? (text : String) : Option Pubspec :=
  if (Text.trim text.toList).isEmpty then some empty
  else do
    let doc ← Yaml.Document.read? text
    doc.run? do ofEntries doc [] empty (← doc.entries doc.root)

def dependsOn (pubspec : Pubspec) (package : String) : Bool := pubspec.dependencies.contains package

end Pubspec

end CrossReference
