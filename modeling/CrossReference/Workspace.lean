import CrossReference.Reference.Destination
import CrossReference.Reference.Import
import CrossReference.Reference.Marker

/-!
The state an editor works on: the files, what was read from the source files, the project, and what
its modules suggest to import. Questions are answered from a `Snapshot` of one state.

All files are asked one by one and in their order. That the work may be shared among threads is left
out, and so is the sharing of texts and trees between states.
-/

namespace CrossReference

open Source (Node Parse)
open Text (LineTable)

/-- `suggestions` are kept under the components of a module's root. -/
structure Workspace where
  store : FileStore
  parses : Table FileId Parse
  project : Project
  suggestions : Table (List Component) Suggestions

namespace Workspace

def ofProject (project : Project) : Workspace := ⟨.empty, [], project, []⟩

def sourceExtension : String := "dart"

def isSource (path : Path) : Bool := path.extension? == some sourceExtension

def setFile (w : Workspace) (path : Path) (text : String) : FileId × Workspace :=
  let (file, store) := w.store.insert path text
  let parses :=
    if isSource path then w.parses.put file (Source.parse text) else w.parses.erase file
  (file, { w with store, parses })

def setParsed (w : Workspace) (path : Path) (text : String) (parse : Parse) : FileId × Workspace :=
  let (file, store) := w.store.insert path text
  (file, { w with store, parses := w.parses.put file parse })

def addResource (w : Workspace) (path : Path) : FileId × Workspace :=
  let (file, store) := w.store.insert path ""
  (file, { w with store })

def removeFile (w : Workspace) (path : Path) : Workspace :=
  match w.store.lookup? path with
  | some file =>
    { w with parses := w.parses.erase file, store := w.store.remove file }
  | none => w

def sourceFiles (w : Workspace) : List FileId := w.parses.map Prod.fst

def setSuggestions (w : Workspace) (root : Path) (index : Suggestions) : Workspace :=
  { w with suggestions := w.suggestions.put root.components index }

def deeper (best : Option (List Component × Suggestions))
    (entry : List Component × Suggestions) : Option (List Component × Suggestions) :=
  match best with
  | some b => if b.1.length ≤ entry.1.length then some entry else best
  | none => some entry

def suggestionsFor? (w : Workspace) (path : Path) : Option Suggestions :=
  ((w.suggestions.filter (·.1.isPrefixOf path.components)).foldl deeper none).map Prod.snd

/-- Applies a ready import fix to its file and reads the file again: whether it changed the file,
the state afterwards, and the fix afterwards. -/
def applyFix (w : Workspace) (fix : ImportFix) : Bool × Workspace × ImportFix :=
  let file := fix.diagnostic.file
  match fix.state, w.store.contents? file with
  | .editReady _, some text =>
    match fix.apply text with
    | (some changed, applied) =>
      (true,
        { w with
          store := w.store.setContents file changed
          parses := w.parses.put file (Source.parse changed) },
        applied)
    | (none, applied) => (false, w, applied)
  | _, _ => (false, w, fix)

end Workspace

structure Snapshot where
  workspace : Workspace
  index : Declarations

def Workspace.snapshot (w : Workspace) : Snapshot :=
  ⟨w, w.parses.foldl (fun index (file, parse) => index.addFile file parse.root) .empty⟩

namespace Snapshot

def root? (a : Snapshot) (file : FileId) : Option Node := a.index.root? file

def lines? (a : Snapshot) (file : FileId) : Option LineTable :=
  (a.workspace.store.contents? file).map LineTable.ofText

def viewpoint? (a : Snapshot) (file : FileId) : Option Viewpoint :=
  let w := a.workspace
  (w.store.path? file).map fun path => ⟨w.project, w.store, a.index, file, path⟩

def destination? (a : Snapshot) (file : FileId) (offset : Nat) : Option Destination := do
  let root ← a.root? file
  let view ← a.viewpoint? file
  view.destination? root offset

def folds (a : Snapshot) (file : FileId) : List Fold :=
  match a.lines? file, a.root? file, a.viewpoint? file with
  | some lines, some root, some view => view.folds root lines
  | _, _, _ => []

def links (a : Snapshot) (file : FileId) : List Link :=
  match a.lines? file, a.root? file, a.viewpoint? file with
  | some lines, some root, some view => view.links root lines
  | _, _, _ => []

def diagnostics (a : Snapshot) (file : FileId) : List Diagnostic :=
  match a.workspace.parses.get? file, a.root? file with
  | some parse, some root =>
    parse.errors.map (Diagnostic.ofParseError file) ++ Diagnostic.check a.index file root
  | _, _ => []

def importFixes (a : Snapshot) (file : FileId) : List ImportFix :=
  match a.root? file, a.workspace.store.path? file with
  | some root, some path =>
    let suggestions := (a.workspace.suggestionsFor? path).getD .empty
    ((a.diagnostics file).filter Diagnostic.isUnresolved).map fun d =>
      (ImportFix.ofDiagnostic d).check root suggestions
  | _, _ => []

end Snapshot

def Workspace.foldAll (w : Workspace) : List (FileId × List Fold) :=
  let a := w.snapshot
  w.sourceFiles.map fun file => (file, a.folds file)

end CrossReference
