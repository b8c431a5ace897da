import CrossReference.Symbols.Diagnostic

/-!
Imports: whether a file has one, where a new one goes, and the fixes that add one for an unresolved
name.
-/

namespace CrossReference

open Source (Node)

/-- The libraries to import names from. A name may be known without a library. -/
structure Suggestions where
  entries : Table String (Option String)

namespace Suggestions

def empty : Suggestions := ⟨[]⟩

/-- Adds a suggestion; the first one for a name stays, and an empty library is none. -/
def insert (index : Suggestions) (name : String) (uri : Option String) : Suggestions :=
  if index.entries.contains name then index
  else ⟨index.entries.put name (uri.filter (!·.isEmpty))⟩

def ofTable (table : Table String String) : Suggestions :=
  table.foldl (fun index (name, uri) => index.insert name (some uri)) empty

def lookup? (index : Suggestions) (name : String) : Option (Option String) :=
  index.entries.get? name

def size (index : Suggestions) : Nat := index.entries.length

end Suggestions

structure ImportEdit where
  offset : Nat
  text : String
  uri : String
  preview : String
deriving DecidableEq

namespace Import

def line (uri : String) : String := "import '" ++ uri ++ "';"

def editAt (uri : String) (offset : Nat) (leadingNewline : Bool) : ImportEdit where
  offset := offset
  text := (if leadingNewline then "\n" else "") ++ line uri ++ "\n"
  uri := uri
  preview := "Add `" ++ line uri ++ "`"

def library? (item : Node) : Option String :=
  if item.kind = .importDirective then (item.child? .stringLiteral).map Node.text else none

def has (root : Node) (uri : String) : Bool :=
  root.children.any fun item =>
    match library? item with
    | some text => text == "'" ++ uri ++ "'" || text == "\"" ++ uri ++ "\""
    | none => false

/-- An item that imports may follow. Parts come after all imports. -/
def isHeader (item : Node) : Bool :=
  match item.kind with
  | .importDirective => true
  | .directive => item.tree.tokens.head?.any (·.kind != .partKw)
  | _ => false

def anchor (root : Node) : Nat :=
  match root.children.find? (!isHeader ·) with
  | some item => item.start
  | none => root.stop

def endsOpen (root : Node) : Bool :=
  match root.tree.tokens.getLast? with
  | some t => t.text.toList.getLast? != some '\n'
  | none => false

def edit (root : Node) (uri : String) : ImportEdit :=
  editAt uri (anchor root) (anchor root == root.stop && endsOpen root)

def splitBytes (n : Nat) : List Char → List Char × List Char
  | [] => ([], [])
  | c :: cs =>
    if n = 0 then ([], c :: cs)
    else
      let (before, after) := splitBytes (n - c.utf8Size) cs
      (c :: before, after)

def insertAt (text : String) (offset : Nat) (piece : String) : String :=
  let (before, after) := splitBytes offset text.toList
  String.ofList before ++ piece ++ String.ofList after

/-- The text with the import added; none when it is already there. The text is read anew, so an edit
made for an older text does no harm. -/
def extend? (text uri : String) : Option String :=
  let root := (Source.parse text).root
  if has root uri then none
  else
    let fresh := edit root uri
    some (insertAt text fresh.offset fresh.text)

def stripCall (symbol : String) : String :=
  String.ofList (Text.trim (symbol.toList.takeWhile (· != '(')))

end Import

inductive FixState where
  | unchecked
  | noSuggestion
  | alreadyImported
  | editReady (edit : ImportEdit)
  | applied
deriving DecidableEq

structure ImportFix where
  diagnostic : Diagnostic
  state : FixState
deriving DecidableEq

namespace ImportFix

def ofDiagnostic (d : Diagnostic) : ImportFix := ⟨d, .unchecked⟩

def classify (d : Diagnostic) (root : Node) (index : Suggestions) : FixState :=
  if d.isUnresolved then
    match index.lookup? (Import.stripCall d.symbol) with
    | some (some uri) =>
      if Import.has root uri then .alreadyImported else .editReady (Import.edit root uri)
    | _ => .noSuggestion
  else .noSuggestion

def suggest? (d : Diagnostic) (root : Node) (index : Suggestions) : Option ImportEdit :=
  match classify d root index with
  | .editReady edit => some edit
  | _ => none

def check (fix : ImportFix) (root : Node) (index : Suggestions) : ImportFix :=
  if fix.state = .unchecked then { fix with state := classify fix.diagnostic root index } else fix

/-- Applies a ready fix to a text: the changed text, if it changed, and the fix afterwards. -/
def apply (fix : ImportFix) (text : String) : Option String × ImportFix :=
  match fix.state with
  | .editReady edit => (Import.extend? text edit.uri, { fix with state := .applied })
  | _ => (none, fix)

end ImportFix

end CrossReference
