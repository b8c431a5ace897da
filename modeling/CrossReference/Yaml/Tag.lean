import CrossReference.Table
import CrossReference.Yaml.Basic

/-!
Tags and directives. A tag is the prefix of its handle and a suffix, or is written out between
angle brackets; a directive gives a handle its prefix, or names the version. The readers work on
one line and give the text after what they read. Tags are made of bytes, since escapes in them
spell bytes.
-/

namespace CrossReference.Yaml

abbrev Bytes := List UInt8

def asciiBytes (text : String) : Bytes := text.toList.map fun c => c.toNat.toUInt8

namespace Tag

def dropBang : List Char → List Char
  | '!' :: c :: cs => c :: cs
  | cs => cs

/-- The tag that bytes spell; of one that starts with `!` up to two of those are dropped. -/
def ofBytes (bytes : Bytes) : Tag :=
  if bytes = asciiBytes "tag:yaml.org,2002:null" then .null
  else if bytes = asciiBytes "tag:yaml.org,2002:bool" then .bool
  else if bytes = asciiBytes "tag:yaml.org,2002:int" then .int
  else if bytes = asciiBytes "tag:yaml.org,2002:float" then .float
  else if bytes = asciiBytes "!" then .bare
  else if bytes.head? = (asciiBytes "!").head? then
    match String.fromUTF8? ⟨bytes.toArray⟩ with
    | some text => .named (String.ofList (dropBang (dropBang text.toList)))
    | none => .garbled
  else .other

def name? : Tag → Option String
  | .bare => some "!"
  | .named name => some name
  | _ => none

end Tag

def tagMarks : List Char :=
  [';', '/', '?', ':', '@', '&', '=', '+', '$', '.', '%', '!', '~', '*', '\'', '(', ')']

def isTagChar (delimited : Bool) (c : Char) : Bool :=
  isWordChar c || tagMarks.contains c || (delimited && [',', '[', ']'].contains c)

def trailing? (octet : Nat) : Option Nat :=
  if octet < 0x80 then some 0
  else if 0xC0 ≤ octet ∧ octet < 0xE0 then some 1
  else if 0xE0 ≤ octet ∧ octet < 0xF0 then some 2
  else if 0xF0 ≤ octet ∧ octet < 0xF8 then some 3
  else none

/-- The bytes of a tag. An escape is `%` and two hexadecimal digits; `pending` are the bytes that
still have to follow as escapes. -/
def tagBytes? (delimited : Bool) : (pending : Nat) → List Char → Option (Bytes × List Char)
  | pending, '%' :: a :: b :: cs => do
    let octet := (← hexDigit? a) * 16 + (← hexDigit? b)
    let pending ←
      match pending with
      | 0 => trailing? octet
      | n + 1 => if 0x80 ≤ octet ∧ octet < 0xC0 then some n else none
    let (bytes, rest) ← tagBytes? delimited pending cs
    return (octet.toUInt8 :: bytes, rest)
  | 0, c :: cs =>
    if c = '%' then none
    else if isTagChar delimited c then do
      let (bytes, rest) ← tagBytes? delimited 0 cs
      return (c.toNat.toUInt8 :: bytes, rest)
    else some ([], c :: cs)
  | 0, [] => some ([], [])
  | _ + 1, _ => none

/-- The bytes of a tag that has some; those from a zero byte on do not count. -/
def someTagBytes? (delimited : Bool) (cs : List Char) : Option (Bytes × List Char) := do
  let (bytes, rest) ← tagBytes? delimited 0 cs
  if bytes.isEmpty then none else return (bytes.takeWhile (· ≠ 0), rest)

structure Directives where
  hasVersion : Bool
  handles : Table String Bytes

namespace Directives

def initial : Directives := ⟨false, []⟩

def start? (directives : Directives) (handle : String) : Option Bytes :=
  match directives.handles.get? handle with
  | some bytes => some bytes
  | none =>
    if handle = "!" then some (asciiBytes "!")
    else if handle = "!!" then some (asciiBytes "tag:yaml.org,2002:")
    else none

end Directives

def handle? : List Char → Option (String × List Char)
  | '!' :: cs =>
    let word := cs.takeWhile isWordChar
    match cs.drop word.length with
    | '!' :: rest => some (String.ofList ('!' :: word ++ ['!']), rest)
    | _ => none
  | _ => none

def tag? (directives : Directives) : List Char → Option (Tag × List Char)
  | '!' :: '<' :: cs => do
    match ← someTagBytes? true cs with
    | (bytes, '>' :: rest) => return (.ofBytes bytes, rest)
    | _ => none
  | '!' :: cs =>
    match handle? ('!' :: cs) with
    | some (handle, cs) => do
      let start ← directives.start? handle
      let (bytes, rest) ← someTagBytes? false cs
      return (.ofBytes (start ++ bytes), rest)
    | none => do
      let (bytes, rest) ← tagBytes? false 0 cs
      let bytes := bytes.takeWhile (· ≠ 0)
      if bytes.isEmpty then return (.bare, rest)
      return (.ofBytes ((← directives.start? "!") ++ bytes), rest)
  | _ => none

def skipBlank (cs : List Char) : List Char := cs.dropWhile isBlank

def versionPart? (cs : List Char) : Option (Nat × List Char) :=
  let ds := cs.takeWhile Char.isDigit
  if ds.isEmpty || 9 < ds.length then none
  else some (ds.foldl (fun n d => n * 10 + (d.toNat - '0'.toNat)) 0, cs.drop ds.length)

namespace Directives

def version? (directives : Directives) (cs : List Char) : Option (Directives × List Char) := do
  match ← versionPart? (skipBlank cs) with
  | (major, '.' :: cs) =>
    let (minor, rest) ← versionPart? cs
    if directives.hasVersion || major != 1 || (minor != 1 && minor != 2) then none
    else return ({ directives with hasVersion := true }, rest)
  | _ => none

def handle? (cs : List Char) : Option (String × List Char) :=
  match Yaml.handle? cs, cs with
  | some read, _ => some read
  | none, '!' :: rest => if rest.head?.any isWordChar then none else some ("!", rest)
  | none, _ => none

def addHandle? (directives : Directives) (cs : List Char) : Option (Directives × List Char) := do
  let (handle, cs) ← handle? (skipBlank cs)
  if !cs.head?.any isBlank then none
  let (bytes, rest) ← someTagBytes? true (skipBlank cs)
  if !atGap rest || directives.handles.contains handle then none
  else return ({ directives with handles := directives.handles.put handle bytes }, rest)

def read? (directives : Directives) (cs : List Char) : Option (Directives × List Char) :=
  let name := cs.takeWhile isWordChar
  let cs := cs.drop name.length
  if !atGap cs then none
  else if name = ['Y', 'A', 'M', 'L'] then directives.version? cs
  else if name = ['T', 'A', 'G'] then directives.addHandle? cs
  else none

end Directives

end CrossReference.Yaml
