import CrossReference.Disk
import CrossReference.Workspace

/-!
Loading a project from a disk: its settings, its files, and the import suggestions of its modules.

Files are read one by one. Reading them at the same time gives the same parses, which are stored in
the order of the files.
-/

namespace CrossReference

inductive LoadError where
  | notADirectory (path : Path)
  | unreadable (path : Path)
  | badSettings
deriving DecidableEq

namespace LoadError

def message? : LoadError → Option String
  | .notADirectory path => some ("directory not found: " ++ path.text)
  | .unreadable _ => none
  | .badSettings => none

end LoadError

def Settings.fileName : Path := ⟨"xref.json"⟩

def Settings.read (disk : Entry) (dir : Path) : Except LoadError (Option Settings) :=
  let path := dir.join fileName
  if disk.hasFile path then
    match disk.readText? path with
    | some text =>
      match ofJson? text with
      | some settings => .ok (some settings)
      | none => .error .badSettings
    | none => .error (.unreadable path)
  else .ok none

namespace Workspace

def textExtensions : List String := [sourceExtension, "arb", "json", "yaml"]

def isText (path : Path) : Bool := textExtensions.contains (path.extension?.getD "")

/-- Adds a file of a disk: one that should be a text and is none is left out, and of all others but
texts only the existence is noted. -/
def addFile (disk : Entry) (w : Workspace) (path : Path) : Workspace :=
  if isText path then
    match disk.readText? path with
    | some text => (w.setFile path text).2
    | none => w
  else (w.addResource path).2

def setSettingsSuggestions (w : Workspace) (root : Path) (settings : Settings) : Workspace :=
  w.setSuggestions root (.ofTable settings.suggestions)

def installSuggestions (disk : Entry) (w : Workspace) : Except LoadError Workspace :=
  let installed := w.setSettingsSuggestions w.project.root w.project.settings
  match w.project.secondaryRoot? with
  | none => .ok installed
  | some secondary =>
    (Settings.read disk secondary).map fun
      | some settings => installed.setSettingsSuggestions secondary settings
      | none => installed

def load (disk : Entry) (root : Path) : Except LoadError Workspace := do
  if !disk.hasDirectory root then throw (.notADirectory root)
  let settings := (← Settings.read disk root).getD .initial
  let project := Project.detect disk.readText? root settings
  installSuggestions disk ((disk.projectFiles root).foldl (addFile disk) (ofProject project))

end Workspace

end CrossReference
