import CrossReference.Json.Read
import CrossReference.Path
import CrossReference.Table

/-!
The settings of a project. Each one is optional, may be given once, and has its own form; keys that
name no setting are passed over. The same rules hold for a JSON file and for a section of a YAML
file; only what counts as a text, a flag or a list differs.
-/

namespace CrossReference

structure Settings where
  resourceNamespaces : List String
  densityVariants : Bool
  localizationClass : String
  localizationField : String
  localizationCall : String
  catalogFile : Path
  secondaryRoot : Option Path
  routeMember : String
  routeTables : List String
  suggestions : Table String String

namespace Settings

def initial : Settings where
  resourceNamespaces := ["R"]
  densityVariants := true
  localizationClass := "S"
  localizationField := "current"
  localizationCall := "of"
  catalogFile := ⟨"lib/l10n/intl_en.arb"⟩
  secondaryRoot := some ⟨"example"⟩
  routeMember := "getPages"
  routeTables := []
  suggestions := []

inductive Field where
  | resourceNamespaces | densityVariants | localizationClass | localizationField | localizationCall
  | catalogFile | secondaryRoot | routeMember | routeTables | suggestions
deriving DecidableEq

namespace Field

def all : List Field :=
  [resourceNamespaces, densityVariants, localizationClass, localizationField, localizationCall,
   catalogFile, secondaryRoot, routeMember, routeTables, suggestions]

def key : Field → String
  | resourceNamespaces => "resource_namespaces"
  | densityVariants => "density_variants"
  | localizationClass => "i18n_class"
  | localizationField => "i18n_field_accessor"
  | localizationCall => "i18n_call_accessor"
  | catalogFile => "catalog_file"
  | secondaryRoot => "secondary_root"
  | routeMember => "route_member"
  | routeTables => "route_tables"
  | suggestions => "suggestions"

def ofKey? (key : String) : Option Field := all.find? (·.key = key)

end Field

structure Reader (m : Type → Type) (α : Type) where
  text : α → m String
  flag : α → m Bool
  texts : α → m (List String)
  optional : α → m (Option α)
  table : α → m (Table String String)

section

variable {m : Type → Type} [Monad m] {α : Type}

def named? : List (String × α) → Option (List (Field × α))
  | [] => some []
  | (key, value) :: rest => do
    let members ← named? rest
    match Field.ofKey? key with
    | none => return members
    | some field => if members.any (·.1 = field) then none else return (field, value) :: members

def ordered? (values : List α) : Option (List (Field × α)) :=
  if values.length ≤ Field.all.length then some (Field.all.zip values) else none

def set (reader : Reader m α) (settings : Settings) (field : Field) (value : α) : m Settings :=
  match field with
  | .resourceNamespaces => return { settings with resourceNamespaces := ← reader.texts value }
  | .densityVariants => return { settings with densityVariants := ← reader.flag value }
  | .localizationClass => return { settings with localizationClass := ← reader.text value }
  | .localizationField => return { settings with localizationField := ← reader.text value }
  | .localizationCall => return { settings with localizationCall := ← reader.text value }
  | .catalogFile => return { settings with catalogFile := ⟨← reader.text value⟩ }
  | .secondaryRoot => do
    match ← reader.optional value with
    | none => return { settings with secondaryRoot := none }
    | some value => return { settings with secondaryRoot := some ⟨← reader.text value⟩ }
  | .routeMember => return { settings with routeMember := ← reader.text value }
  | .routeTables => return { settings with routeTables := ← reader.texts value }
  | .suggestions => return { settings with suggestions := ← reader.table value }

def ofMembers (reader : Reader m α) (members : List (Field × α)) : m Settings :=
  members.foldlM (fun settings (field, value) => settings.set reader field value) initial

end

def jsonTable? (members : List (List Char × Json)) : Option (Table String String) :=
  members.foldlM
    (fun table (key, value) => do
      return table.put (String.ofList (← Json.Text.decode? key)) (← value.text?)) []

def jsonReader : Reader Option Json where
  text := Json.text?
  flag
    | .bool b => some b
    | _ => none
  texts
    | .array items => items.mapM Json.text?
    | _ => none
  optional
    | .null => some none
    | value => some (some value)
  table
    | .object members => jsonTable? members
    | _ => none

def ofJson? (text : String) : Option Settings := do
  match ← Json.read? text with
  | .object members =>
    let named ← members.mapM fun (key, value) =>
      (Json.Text.decode? key).map fun k => (String.ofList k, value)
    ofMembers jsonReader (← named? named)
  | .array items => ofMembers jsonReader (← ordered? items)
  | _ => none

def isResourceNamespace (settings : Settings) (name : String) : Bool :=
  settings.resourceNamespaces.contains name

end Settings

end CrossReference
