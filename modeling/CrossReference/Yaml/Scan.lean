import CrossReference.Yaml.Scalar
import CrossReference.Yaml.Tag

/-!
The tokens of a YAML text. Indentation becomes start and end tokens, and a scalar that turns out to
be a key gets its `key` token in front of it when its colon is found. Tags are worked out as the
directives before them say, and anchors are numbered.
-/

namespace CrossReference.Yaml

/-- Something that may turn out to be a key: the number of tokens before it and where it stands. A
key that starts a line of a block mapping has to be one. -/
structure Candidate where
  before : Nat
  line : Nat
  column : Nat
  offset : Nat
  required : Bool

/-- `indents` are the columns of the open block collections counted from one, innermost first.
`keys` has the candidate of each open flow collection, innermost first, and of the block around
them last. `anchors` has the number each name stands for. -/
structure Scanner where
  cursor : Cursor
  tokens : List Token
  indents : List Nat
  keys : List (Option Candidate)
  keyAllowed : Bool
  directives : Directives
  anchors : Table String Nat

namespace Scanner

def start (cs : List Char) : Scanner := ⟨.ofText cs, [], [], [none], true, .initial, []⟩

def inFlow (s : Scanner) : Bool := 1 < s.keys.length

def indent (s : Scanner) : Nat := s.indents.headD 0

def push (t : Token) (s : Scanner) : Scanner := { s with tokens := s.tokens ++ [t] }

def forward (n : Nat) (s : Scanner) : Scanner := { s with cursor := s.cursor.forward n }

/-- A key ends on the line it starts on, within 1024 bytes. -/
def isFresh (s : Scanner) (k : Candidate) : Bool :=
  k.line == s.cursor.line && s.cursor.offset ≤ k.offset + 1024

def dropKey (s : Scanner) : Option Scanner :=
  match s.keys with
  | some k :: rest => if k.required then none else some { s with keys := none :: rest }
  | _ => some s

def dropStale (s : Scanner) : Option Scanner := do
  let keys ← s.keys.mapM fun key =>
    match key with
    | some k => if s.isFresh k then some key else if k.required then none else some none
    | none => some none
  return { s with keys }

def saveKey (s : Scanner) : Option Scanner :=
  if s.keyAllowed then do
    let s ← s.dropKey
    let c := s.cursor
    let required := !s.inFlow && s.indent == c.column + 1
    let key : Candidate := ⟨s.tokens.length, c.line, c.column, c.offset, required⟩
    return { s with keys := some key :: s.keys.tail }
  else some s

def roll (column before : Nat) (t : Token) (s : Scanner) : Scanner :=
  if !s.inFlow && s.indent < column + 1 then
    { s with
      indents := (column + 1) :: s.indents
      tokens := s.tokens.take before ++ t :: s.tokens.drop before }
  else s

def unrollAll (depth : Nat) : List Nat → List Token → List Nat × List Token
  | [], tokens => ([], tokens)
  | i :: is, tokens =>
    if depth < i then unrollAll depth is (tokens ++ [.blockEnd]) else (i :: is, tokens)

def unroll (depth : Nat) (s : Scanner) : Scanner :=
  if s.inFlow then s
  else
    let (indents, tokens) := unrollAll depth s.indents s.tokens
    { s with indents, tokens }

def skipMark (s : Scanner) : Scanner :=
  if s.cursor.column == 0 && s.cursor.rest.head? == some '\ufeff' then s.forward 1 else s

def skipToToken : Nat → Scanner → Scanner
  | 0, s => s
  | fuel + 1, s =>
    let s := s.skipMark
    let isSkipped (c : Char) : Bool := c == ' ' || (c == '\t' && (s.inFlow || !s.keyAllowed))
    let s := s.forward (s.cursor.rest.takeWhile isSkipped).length
    let s := { s with cursor := Scalar.skipComment s.cursor }
    if s.cursor.atBreak then
      skipToToken fuel
        { s with cursor := s.cursor.nextLine, keyAllowed := s.keyAllowed || !s.inFlow }
    else s

def documentMark (t : Token) (s : Scanner) : Option Scanner := do
  let s ← (s.unroll 0).dropKey
  return { (s.push t).forward 3 with keyAllowed := false }

def directive (s : Scanner) : Option Scanner := do
  let s ← (s.unroll 0).dropKey
  let line := s.cursor.rest.drop 1
  let (directives, rest) ← s.directives.read? line
  let c := s.cursor.forward (1 + (line.length - rest.length))
  let c := Scalar.skipComment (Scalar.skipBlanks c)
  if !c.rest.isEmpty && !c.atBreak then none
  return { s.push .directive with cursor := c.nextLine, keyAllowed := false, directives }

def openFlow (t : Token) (s : Scanner) : Option Scanner := do
  let s ← s.saveKey
  return { (s.push t).forward 1 with keys := none :: s.keys, keyAllowed := true }

def closeFlow (t : Token) (s : Scanner) : Option Scanner := do
  let s ← s.dropKey
  let keys := if s.inFlow then s.keys.tail else s.keys
  return { (s.push t).forward 1 with keys, keyAllowed := false }

def flowEntry (s : Scanner) : Option Scanner := do
  let s ← s.dropKey
  return { (s.push .flowEntry).forward 1 with keyAllowed := true }

def blockEntry (s : Scanner) : Option Scanner := do
  if !s.inFlow && !s.keyAllowed then none
  let s ← (s.roll s.cursor.column s.tokens.length .blockSequence).dropKey
  return { (s.push .blockEntry).forward 1 with keyAllowed := true }

def explicitKey (s : Scanner) : Option Scanner := do
  if !s.inFlow && !s.keyAllowed then none
  let s ← (s.roll s.cursor.column s.tokens.length .blockMapping).dropKey
  return { (s.push .key).forward 1 with keyAllowed := !s.inFlow }

def value (s : Scanner) : Option Scanner := do
  match s.keys with
  | some k :: rest =>
    let tokens := s.tokens.take k.before ++ Token.key :: s.tokens.drop k.before
    let s := { s with tokens, keys := none :: rest, keyAllowed := false }
    return ((s.roll k.column k.before .blockMapping).push .value).forward 1
  | _ =>
    if !s.inFlow && !s.keyAllowed then none
    let s := s.roll s.cursor.column s.tokens.length .blockMapping
    return { (s.push .value).forward 1 with keyAllowed := !s.inFlow }

def anchorName? (cs : List Char) : Option (String × Nat) :=
  let name := cs.takeWhile isWordChar
  let ends := ['?', ':', ',', ']', '}', '%', '@', '\x60']
  let rest := cs.drop name.length
  if name.isEmpty || !(atGap rest || rest.head?.any ends.contains) then none
  else some (String.ofList name, name.length)

/-- An anchor is numbered by how many names are known before it, also where its own is one. -/
def anchor (s : Scanner) : Option Scanner := do
  let s ← s.saveKey
  let (name, n) ← anchorName? (s.cursor.rest.drop 1)
  let number := s.anchors.length
  return { (s.push (.anchor number)).forward (n + 1) with
    keyAllowed := false, anchors := s.anchors.put name number }

def reference (s : Scanner) : Option Scanner := do
  let s ← s.saveKey
  let (name, n) ← anchorName? (s.cursor.rest.drop 1)
  let number ← s.anchors.get? name
  return { (s.push (.reference number)).forward (n + 1) with keyAllowed := false }

def tag (s : Scanner) : Option Scanner := do
  let s ← s.saveKey
  let (tag, rest) ← tag? s.directives s.cursor.rest
  if !(atGap rest || (s.inFlow && rest.head? == some ',')) then none
  return { (s.push (.tag tag)).forward (s.cursor.rest.length - rest.length) with
    keyAllowed := false }

def blockScalar (folded : Bool) (s : Scanner) : Option Scanner := do
  let s ← s.dropKey
  let (text, cursor) ← Scalar.block folded s.indent (s.cursor.forward 1)
  let style : Style := if folded then .folded else .literal
  return { s.push (.scalar style (String.ofList text)) with cursor, keyAllowed := true }

def quotedScalar (double : Bool) (s : Scanner) : Option Scanner := do
  let s ← s.saveKey
  let c := s.cursor.forward 1
  let (text, cursor) ← Scalar.quoted double (c.rest.length + 1) [] c
  return { s.push (.scalar .quoted (String.ofList text)) with cursor, keyAllowed := false }

def plainScalar (s : Scanner) : Option Scanner := do
  let s ← s.saveKey
  let read ← Scalar.plain s.inFlow s.indent (s.cursor.rest.length + 1) [] .none s.cursor
  return { s.push (.scalar .plain (String.ofList read.text)) with
    cursor := read.stop, keyAllowed := read.endsLine }

def startsPlain (inFlow : Bool) (c : Char) (rest : List Char) : Bool :=
  !(isBlank c || isBreak c || Scalar.isFlowMark c ||
      ['-', '?', ':', '#', '&', '*', '!', '|', '>', '\'', '"', '%', '@', '\x60'].contains c) ||
    (c == '-' && !(rest.head?.any isBlank)) ||
    (!inFlow && (c == '?' || c == ':') && !atGap rest)

def step (s : Scanner) (c : Char) (rest : List Char) : Option Scanner :=
  if s.cursor.column == 0 && c == '%' then s.directive
  else if s.cursor.atDocumentMark then
    s.documentMark (if c = '-' then .documentStart else .documentEnd)
  else match c with
    | '[' => s.openFlow .flowSequenceStart
    | '{' => s.openFlow .flowMappingStart
    | ']' => s.closeFlow .flowSequenceEnd
    | '}' => s.closeFlow .flowMappingEnd
    | ',' => s.flowEntry
    | '*' => s.reference
    | '&' => s.anchor
    | '!' => s.tag
    | '\'' => s.quotedScalar false
    | '"' => s.quotedScalar true
    | c =>
      if c = '-' && atGap rest then s.blockEntry
      else if c = '?' && (s.inFlow || atGap rest) then s.explicitKey
      else if c = ':' && (s.inFlow || atGap rest) then s.value
      else if c = '|' && !s.inFlow then s.blockScalar false
      else if c = '>' && !s.inFlow then s.blockScalar true
      else if startsPlain s.inFlow c rest then s.plainScalar
      else none

def run : Nat → Scanner → Option (List Token)
  | 0, _ => none
  | fuel + 1, s => do
    let s := skipToToken (s.cursor.rest.length + 1) s
    let s ← s.dropStale
    let s := s.unroll (s.cursor.column + 1)
    match s.cursor.rest with
    | [] => return ((← s.dropKey).unroll 0).tokens
    | c :: rest => run fuel (← s.step c rest)

end Scanner

def scan? (text : String) : Option (List Token) :=
  let cs := text.toList
  if cs.all isAllowed then (Scanner.start cs).run (cs.length + 1) else none

end CrossReference.Yaml
