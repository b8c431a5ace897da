/-!
Paths as they are spelled, and the components they denote. Two paths name the same file when their
components agree: repeated slashes, a trailing slash and `.` after the first component do not count,
and `..` is a component like any other.

A path is a text: names that are not UTF-8 are left out.
-/

namespace CrossReference

structure Path where
  text : String
deriving DecidableEq

inductive Component where
  | root
  | current
  | up
  | name (text : String)
deriving DecidableEq

namespace Path

def splitSlash : List Char → List (List Char)
  | [] => [[]]
  | c :: cs =>
    if c = '/' then [] :: splitSlash cs
    else match splitSlash cs with
      | part :: parts => (c :: part) :: parts
      | [] => [[c]]

def joinSlash : List (List Char) → List Char
  | [] => []
  | [part] => part
  | part :: parts => part ++ '/' :: joinSlash parts

def isIgnored (part : List Char) : Bool := part.isEmpty || part == ['.']

def head : List Char → List Char
  | '/' :: _ => ['/']
  | ['.'] => ['.']
  | '.' :: '/' :: _ => ['.']
  | _ => []

def parts (p : Path) : List (List Char) :=
  let cs := p.text.toList
  splitSlash (cs.drop (head cs).length)

def isAbsolute (p : Path) : Bool := p.text.toList.head? == some '/'

def headComponent : List Char → List Component
  | ['/'] => [.root]
  | ['.'] => [.current]
  | _ => []

def partComponent (part : List Char) : Component :=
  if part = ['.', '.'] then .up else .name (String.ofList part)

def components (p : Path) : List Component :=
  headComponent (head p.text.toList) ++ (p.parts.filter (!isIgnored ·)).map partComponent

def isSame (p q : Path) : Bool := p.components == q.components

def startsWith (p base : Path) : Bool := base.components.isPrefixOf p.components

/-- The path `q` seen from `p`: an absolute path stands for itself, and joining an empty one leaves
a slash at the end. -/
def join (p q : Path) : Path :=
  if q.isAbsolute then q
  else if p.text.isEmpty || p.text.toList.getLast? == some '/' then ⟨p.text ++ q.text⟩
  else ⟨p.text ++ "/" ++ q.text⟩

def dropIgnored (parts : List (List Char)) : List (List Char) :=
  (parts.reverse.dropWhile isIgnored).reverse

def parent? (p : Path) : Option Path :=
  let front := head p.text.toList
  let kept := dropIgnored p.parts
  if kept.isEmpty then if front = ['.'] then some ⟨""⟩ else none
  else some ⟨String.ofList (front ++ joinSlash (dropIgnored kept.dropLast))⟩

def fileName? (p : Path) : Option String :=
  match (dropIgnored p.parts).getLast? with
  | some part => if part = ['.', '.'] then none else some (String.ofList part)
  | none => none

def dropParts : Nat → List (List Char) → List (List Char)
  | 0, parts => parts
  | _, [] => []
  | n + 1, part :: parts => if isIgnored part then dropParts (n + 1) parts else dropParts n parts

def relativeTo? (p base : Path) : Option Path :=
  if p.startsWith base then
    let front := head p.text.toList
    if base.components.isEmpty then
      some ⟨String.ofList (front ++ joinSlash (dropIgnored p.parts))⟩
    else
      let named := base.components.length - (headComponent front).length
      let rest := (dropParts named p.parts).dropWhile isIgnored
      some ⟨String.ofList (joinSlash (dropIgnored rest))⟩
  else none

def afterLastDot? (cs : List Char) : Option (List Char × List Char) :=
  let after := cs.reverse.takeWhile (· != '.')
  if after.length = cs.length then none
  else some (cs.take (cs.length - after.length - 1), after.reverse)

def extension? (p : Path) : Option String := do
  let (before, after) ← afterLastDot? (← p.fileName?).toList
  if before.isEmpty then none else some (String.ofList after)

end Path

end CrossReference
