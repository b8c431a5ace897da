import CrossReference.Source.Parse
import CrossReference.Symbols.Resolution
import CrossReference.Text.Blank

/-!
What is reported about a file: names that resolve to nothing, and errors of the parser. Only names
that look like types are checked, because most others are members of types that are not in view.
-/

namespace CrossReference

open Source (Node Parse)
open Text (Range)

inductive Severity where
  | error | warning
deriving DecidableEq

def Severity.code : Severity → Nat
  | .error => 1
  | .warning => 2

/-- `symbol` is the reference as written, with its call. -/
structure Diagnostic where
  file : FileId
  range : Range
  severity : Severity
  code : Option String
  message : String
  symbol : String
deriving DecidableEq

namespace Diagnostic

def undefinedReference : String := "E0001"

def malformed : String := "E0100"

def isUnresolved (d : Diagnostic) : Bool := d.code == some undefinedReference

def undefined (file : FileId) (range : Range) (symbol name : String) : Diagnostic where
  file := file
  range := range
  severity := .error
  code := some undefinedReference
  message := "undefined reference: '" ++ name ++ "'"
  symbol := symbol

def ofParseError (file : FileId) (e : Source.ParseError) : Diagnostic where
  file := file
  range := ⟨e.offset, e.offset⟩
  severity := .warning
  code := some malformed
  message := e.message
  symbol := ""

def builtinTypes : List String :=
  ["BigInt", "Comparable", "DateTime", "Duration", "Error", "Exception", "Function", "Future",
   "FutureOr", "Iterable", "Iterator", "List", "Map", "Never", "Null", "Object", "Record",
   "RegExp", "Set", "Stream", "String", "StringBuffer", "Symbol", "Type", "Uri", "bool",
   "double", "dynamic", "int", "num", "void"]

def isTypeLike (name : String) : Bool :=
  (match name.toList with
    | c :: _ :: _ => c.isUpper
    | _ => false) &&
  !builtinTypes.contains name

def reported (ref : Node) (parent? : Option Node) : Node :=
  match parent? with
  | some parent =>
    if parent.kind == .callExpr && parent.firstExpr?.any (·.isSame ref) then parent else ref
  | none => ref

def trimmed (text : String) : String := String.ofList (Text.trim text.toList)

def ofNameRef? (index : Declarations) (ref : Located) : Option Diagnostic := do
  let name ← ref.node.refName?
  if isTypeLike name && !(ref.node.parent?.any ref.node.isMemberName) &&
      (index.resolve? ref).isNone then
    let node := reported ref.node ref.node.parent?
    return undefined ref.file node.range (trimmed node.text) name
  else none

def ofTypeRef? (index : Declarations) (type : Located) : Option Diagnostic :=
  match type.node.directTokens.filter (!·.1.isTrivia) with
  | (head, start) :: rest =>
    if head.kind == .ident && rest.head?.all (·.1.kind != .dot) && isTypeLike head.text &&
        (index.lookupClass? head.text).isNone then
      some (undefined type.file ⟨start, start + head.size⟩ head.text head.text)
    else none
  | [] => none

def ofNode? (index : Declarations) (l : Located) : Option Diagnostic :=
  match l.kind with
  | .nameRef => ofNameRef? index l
  | .typeRef => ofTypeRef? index l
  | _ => none

def check (index : Declarations) (file : FileId) (root : Node) : List Diagnostic :=
  root.descendants.filterMap fun n => ofNode? index ⟨file, n⟩

end Diagnostic

end CrossReference
