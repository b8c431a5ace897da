import CrossReference.Path
import CrossReference.Table

/-!
A file system as a tree of directories, and the files of a project in it. Directories that hold no
sources of a project, hidden ones among them, are not descended into.

The bytes of a file may be any, but its name is a text. Links, permissions and changes while a
project is read are left out.
-/

namespace CrossReference

inductive Entry where
  | file (bytes : ByteArray)
  | directory (entries : List (String × Entry))

namespace Entry

def isDirectory : Entry → Bool
  | .directory _ => true
  | .file _ => false

def isFile (e : Entry) : Bool := !e.isDirectory

def text? : Entry → Option String
  | .file bytes => String.fromUTF8? bytes
  | .directory _ => none

def insert : Entry → List String → Entry → Entry
  | .directory entries, [], .directory [] => .directory entries
  | _, [], new => new
  | .directory entries, name :: rest, new =>
    let below := (Table.get? entries name).getD (.directory [])
    .directory (Table.put entries name (insert below rest new))
  | .file bytes, _ :: _, _ => .file bytes

/-- Follows the parts of a path from a directory, where `above` are the directories on the way, last
one first. Only a directory can be gone on from, and above the topmost one stands itself. -/
def follow (here : Entry) (above : List Entry) : List (List Char) → Option Entry
  | [] => some here
  | part :: parts =>
    match here with
    | .file _ => none
    | .directory entries =>
      if Path.isIgnored part then follow here above parts
      else if part = ['.', '.'] then
        match above with
        | parent :: rest => follow parent rest parts
        | [] => follow here [] parts
      else do
        let next ← Table.get? entries (String.ofList part)
        follow next (here :: above) parts

def find? (disk : Entry) (path : Path) : Option Entry :=
  if path.isAbsolute then follow disk [] path.parts else none

def hasFile (disk : Entry) (path : Path) : Bool := (disk.find? path).any isFile

def hasDirectory (disk : Entry) (path : Path) : Bool := (disk.find? path).any isDirectory

def readText? (disk : Entry) (path : Path) : Option String := (disk.find? path).bind text?

def skippedNames : List String := ["build", "node_modules", "ios", "android"]

def isSkipped (name : String) (e : Entry) : Bool :=
  e.isDirectory && (name.toList.head? == some '.' || skippedNames.contains name)

def gather (found : List (String × List (List String))) : List (List String) :=
  (found.mergeSort fun a b => a.1 ≤ b.1).flatMap fun (name, paths) => paths.map (name :: ·)

mutual

def walk : Entry → List (List String)
  | .file _ => [[]]
  | .directory entries => gather (walkAll entries)

def walkAll : List (String × Entry) → List (String × List (List String))
  | [] => []
  | (name, e) :: entries => (name, if e.isSkipped name then [] else e.walk) :: walkAll entries

end

def projectFiles (disk : Entry) (root : Path) : List Path :=
  match disk.find? root with
  | some e => e.walk.map (·.foldl (fun path name => path.join ⟨name⟩) root)
  | none => []

end Entry

end CrossReference
