import CrossReference.Yaml.Scan

/-!
Nodes from tokens. Every reader gives a node and the tokens after it.
-/

namespace CrossReference.Yaml

def startsWithAny (kinds : List Token) : List Token → Bool
  | t :: _ => kinds.contains t
  | [] => true

structure Properties where
  anchor : Option Nat
  tag : Option Tag

namespace Properties

def read : List Token → Properties × List Token
  | .anchor n :: .tag t :: rest => (⟨some n, some t⟩, rest)
  | .anchor n :: rest => (⟨some n, none⟩, rest)
  | .tag t :: .anchor n :: rest => (⟨some n, some t⟩, rest)
  | .tag t :: rest => (⟨none, some t⟩, rest)
  | rest => (⟨none, none⟩, rest)

def isEmpty (p : Properties) : Bool := p.anchor.isNone && p.tag.isNone

def attach (p : Properties) (node : Yaml) : Yaml :=
  match p.anchor with
  | some n => .anchored n node
  | none => node

/-- A scalar; one that is written takes the tag `!` for no tag. -/
def scalar (p : Properties) (style : Style) (text : String) : Yaml :=
  p.attach (.scalar ⟨if p.tag = some .bare then none else p.tag, style, text⟩)

def sequence (p : Properties) (items : List Yaml) : Yaml := p.attach (.sequence p.tag items)

def mapping (p : Properties) (entries : List (Yaml × Yaml)) : Yaml :=
  p.attach (.mapping p.tag entries)

end Properties

mutual

/-- A node. In a block, block collections may follow; after a key, also the entries of a sequence
that is not indented. Properties without a node stand before an empty scalar. -/
def node? (inBlock indentless : Bool) : Nat → List Token → Option (Yaml × List Token)
  | 0, _ => none
  | _ + 1, .reference n :: rest => some (.reference n, rest)
  | fuel + 1, tokens =>
    let (p, tokens) := Properties.read tokens
    let empty := if p.isEmpty then none else some (p.attach (.scalar ⟨p.tag, .plain, ""⟩), tokens)
    match tokens with
    | .blockEntry :: _ =>
      if indentless then
        (indentlessItems? fuel tokens).map fun (items, rest) => (p.sequence items, rest)
      else empty
    | .scalar style text :: rest => some (p.scalar style text, rest)
    | .flowSequenceStart :: rest =>
      (flowItems? fuel true rest).map fun (items, rest) => (p.sequence items, rest)
    | .flowMappingStart :: rest =>
      (flowEntries? fuel true rest).map fun (entries, rest) => (p.mapping entries, rest)
    | .blockSequence :: rest =>
      if inBlock then (blockItems? fuel rest).map fun (items, rest) => (p.sequence items, rest)
      else empty
    | .blockMapping :: rest =>
      if inBlock then (blockEntries? fuel rest).map fun (entries, rest) => (p.mapping entries, rest)
      else empty
    | _ => empty

def nodeUnless? (ends : List Token) (inBlock indentless : Bool) :
    Nat → List Token → Option (Yaml × List Token)
  | 0, _ => none
  | fuel + 1, tokens =>
    if startsWithAny ends tokens then some (absent, tokens)
    else node? inBlock indentless fuel tokens

def blockItems? : Nat → List Token → Option (List Yaml × List Token)
  | 0, _ => none
  | fuel + 1, tokens =>
    match tokens with
    | .blockEntry :: rest => do
      let (item, rest) ← nodeUnless? [.blockEntry, .blockEnd] true false fuel rest
      let (items, rest) ← blockItems? fuel rest
      return (item :: items, rest)
    | .blockEnd :: rest => some ([], rest)
    | _ => none

def indentlessItems? : Nat → List Token → Option (List Yaml × List Token)
  | 0, _ => none
  | fuel + 1, tokens =>
    match tokens with
    | .blockEntry :: rest => do
      let (item, rest) ←
        nodeUnless? [.blockEntry, .key, .value, .blockEnd] true false fuel rest
      let (items, rest) ← indentlessItems? fuel rest
      return (item :: items, rest)
    | rest => some ([], rest)

def blockEntries? : Nat → List Token → Option (List (Yaml × Yaml) × List Token)
  | 0, _ => none
  | fuel + 1, tokens =>
    match tokens with
    | .key :: rest => do
      let ends : List Token := [.key, .value, .blockEnd]
      let (key, rest) ← nodeUnless? ends true true fuel rest
      let (value, rest) ←
        match rest with
        | .value :: rest => nodeUnless? ends true true fuel rest
        | rest => some (absent, rest)
      let (entries, rest) ← blockEntries? fuel rest
      return ((key, value) :: entries, rest)
    | .blockEnd :: rest => some ([], rest)
    | _ => none

def flowValue? (close : Token) : Nat → List Token → Option (Yaml × List Token)
  | 0, _ => none
  | fuel + 1, tokens =>
    match tokens with
    | .value :: rest => nodeUnless? [.flowEntry, close] false false fuel rest
    | rest => some (absent, rest)

/-- The items of a flow sequence; a pair whose key is left out takes up the mark after it. -/
def flowItems? : Nat → (first : Bool) → List Token → Option (List Yaml × List Token)
  | 0, _, _ => none
  | fuel + 1, first, tokens =>
    match tokens with
    | .flowSequenceEnd :: rest => some ([], rest)
    | tokens => do
      let tokens ←
        match first, tokens with
        | true, tokens => some tokens
        | false, .flowEntry :: rest => some rest
        | false, _ => none
      match tokens with
      | .flowSequenceEnd :: rest => return ([], rest)
      | .key :: rest =>
        let (key, rest) ←
          if startsWithAny [.value, .flowEntry, .flowSequenceEnd] rest then
            some (absent, rest.drop 1)
          else node? false false fuel rest
        let (value, rest) ← flowValue? .flowSequenceEnd fuel rest
        let (items, rest) ← flowItems? fuel false rest
        return (.mapping none [(key, value)] :: items, rest)
      | tokens =>
        let (item, rest) ← node? false false fuel tokens
        let (items, rest) ← flowItems? fuel false rest
        return (item :: items, rest)

def flowEntries? : Nat → (first : Bool) → List Token → Option (List (Yaml × Yaml) × List Token)
  | 0, _, _ => none
  | fuel + 1, first, tokens =>
    match tokens with
    | .flowMappingEnd :: rest => some ([], rest)
    | tokens => do
      let tokens ←
        match first, tokens with
        | true, tokens => some tokens
        | false, .flowEntry :: rest => some rest
        | false, _ => none
      match tokens with
      | .flowMappingEnd :: rest => return ([], rest)
      | .key :: rest =>
        let (key, rest) ←
          nodeUnless? [.value, .flowEntry, .flowMappingEnd] false false fuel rest
        let (value, rest) ← flowValue? .flowMappingEnd fuel rest
        let (entries, rest) ← flowEntries? fuel false rest
        return ((key, value) :: entries, rest)
      | tokens =>
        let (key, rest) ← node? false false fuel tokens
        let (entries, rest) ← flowEntries? fuel false rest
        return ((key, absent) :: entries, rest)

end

/-- The one document of a token sequence; directives need a mark between them and the document. -/
def document? (tokens : List Token) : Option Yaml := do
  let body ←
    match tokens, tokens.dropWhile (· == .directive) with
    | _, .documentStart :: rest => some rest
    | .directive :: _, _ => none
    | _, rest => some rest
  let (node, rest) ←
    nodeUnless? [.documentStart, .documentEnd] true false (4 * tokens.length + 4) body
  if rest.all (· == .documentEnd) then some node else none

def read? (text : String) : Option Yaml := do document? (← scan? text)

end CrossReference.Yaml
