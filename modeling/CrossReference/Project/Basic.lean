import CrossReference.Project.Pubspec

namespace CrossReference

structure Project where
  root : Path
  settings : Settings
  recognized : Bool

namespace Project

def pubspecName : Path := ⟨"pubspec.yaml"⟩

def framework : String := "flutter"

def unrecognized (root : Path) : Project := ⟨root, .initial, false⟩

def mergeSuggestions (section_ given : Table String String) : Table String String :=
  given.foldl
    (fun table (name, uri) => if table.contains name then table else table.put name uri) section_

/-- The project at `root` judged by its package file, whose section of settings replaces the given
ones except that suggestions are merged. Without a readable package file the project is not
recognized. -/
def detect (read? : Path → Option String) (root : Path) (settings : Settings) : Project :=
  match (read? (root.join pubspecName)).bind Pubspec.parse? with
  | none => ⟨root, settings, false⟩
  | some pubspec =>
    let merged := match pubspec.settings with
      | some s => { s with suggestions := mergeSuggestions s.suggestions settings.suggestions }
      | none => settings
    ⟨root, merged, pubspec.dependsOn framework⟩

def secondaryRoot? (project : Project) : Option Path :=
  project.settings.secondaryRoot.map project.root.join

def moduleRoot (project : Project) (file : Path) : Path :=
  match project.secondaryRoot? with
  | some secondary => if file.startsWith secondary then secondary else project.root
  | none => project.root

def catalogPath (project : Project) (file : Path) : Path :=
  (project.moduleRoot file).join project.settings.catalogFile

end Project

end CrossReference
