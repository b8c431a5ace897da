import CrossReference.Yaml.Cursor

/-!
Reading scalars: plain, quoted, and the block forms `|` and `>`. Each reader gives the text and
where it ends.
-/

namespace CrossReference.Yaml.Scalar

def isFlowMark (c : Char) : Bool :=
  c == ',' || c == '[' || c == ']' || c == '{' || c == '}'

def plainRun (inFlow : Bool) : List Char → Option (List Char)
  | [] => some []
  | c :: cs =>
    if isBlank c || isBreak c then some []
    else if c = ':' && atGap cs then some []
    else if inFlow && c = ':' && (cs.head?.any fun d => isFlowMark d || d == '?') then none
    else if inFlow && isFlowMark c then some []
    else (plainRun inFlow cs).map (c :: ·)

structure Plain where
  text : List Char
  stop : Cursor
  endsLine : Bool

def plain (inFlow : Bool) (indent : Nat) : Nat → List Char → Gap → Cursor → Option Plain
  | 0, text, gap, c => some ⟨text, c, !gap.breaks.isEmpty⟩
  | fuel + 1, text, gap, c =>
    if c.atDocumentMark || c.rest.head? == some '#' then some ⟨text, c, !gap.breaks.isEmpty⟩
    else do
      let run ← plainRun inFlow c.rest
      if run.isEmpty then return ⟨text, c, !gap.breaks.isEmpty⟩
      let text := text ++ gap.text ++ run
      let c := c.forward run.length
      if c.rest.isEmpty || !atGap c.rest then return ⟨text, c, false⟩
      let (gap, c) ← readGap indent (c.rest.length + 1) .none c
      if !inFlow && c.column < indent then return ⟨text, c, !gap.breaks.isEmpty⟩
      plain inFlow indent fuel text gap c

def hexChar? (n : Nat) (cs : List Char) : Option Char := do
  if cs.length < n then none
  let value ← (cs.take n).foldlM (fun v c => (hexDigit? c).map (v * 16 + ·)) 0
  if value.isValidChar then some (Char.ofNat value) else none

def escape? : List Char → Option (Char × Nat)
  | '0' :: _ => some ('\x00', 1)
  | 'a' :: _ => some ('\x07', 1)
  | 'b' :: _ => some ('\x08', 1)
  | 't' :: _ => some ('\t', 1)
  | '\t' :: _ => some ('\t', 1)
  | 'n' :: _ => some ('\n', 1)
  | 'v' :: _ => some ('\x0b', 1)
  | 'f' :: _ => some ('\x0c', 1)
  | 'r' :: _ => some ('\r', 1)
  | 'e' :: _ => some ('\x1b', 1)
  | ' ' :: _ => some (' ', 1)
  | '"' :: _ => some ('"', 1)
  | '/' :: _ => some ('/', 1)
  | '\\' :: _ => some ('\\', 1)
  | 'N' :: _ => some ('\x85', 1)
  | '_' :: _ => some ('\xa0', 1)
  | 'L' :: _ => some ('\u2028', 1)
  | 'P' :: _ => some ('\u2029', 1)
  | 'x' :: cs => (hexChar? 2 cs).map (·, 3)
  | 'u' :: cs => (hexChar? 4 cs).map (·, 5)
  | 'U' :: cs => (hexChar? 8 cs).map (·, 9)
  | _ => none

def quoted (double : Bool) : Nat → List Char → Cursor → Option (List Char × Cursor)
  | 0, _, _ => none
  | fuel + 1, text, c =>
    if c.atDocumentMark then none
    else match c.rest with
      | [] => none
      | '\'' :: '\'' :: _ =>
        if double then quoted double fuel (text ++ ['\'']) (c.forward 1)
        else quoted double fuel (text ++ ['\'']) (c.forward 2)
      | '"' :: _ =>
        if double then some (text, c.forward 1)
        else quoted double fuel (text ++ ['"']) (c.forward 1)
      | '\'' :: _ =>
        if double then quoted double fuel (text ++ ['\'']) (c.forward 1)
        else some (text, c.forward 1)
      | '\\' :: cs =>
        if !double then quoted double fuel (text ++ ['\\']) (c.forward 1)
        else if (c.forward 1).atBreak then do
          let (gap, c) ← readGap 0 cs.length ⟨[], []⟩ (c.forward 1).nextLine
          quoted double fuel (text ++ gap.breaks) c
        else do
          let (value, n) ← escape? cs
          quoted double fuel (text ++ [value]) (c.forward (n + 1))
      | b :: _ =>
        if isBlank b || isBreak b then do
          let (gap, c) ← readGap 0 (c.rest.length + 1) .none c
          quoted double fuel (text ++ gap.text) c
        else quoted double fuel (text ++ [b]) (c.forward 1)

inductive Chomping where
  | strip | clip | keep
deriving DecidableEq

def blockHeader : List Char → Option (Chomping × Nat × Nat)
  | cs =>
    let chomp? (c : Char) : Option Chomping :=
      if c = '+' then some .keep else if c = '-' then some .strip else none
    let digit? (c : Char) : Option Nat :=
      if '1' ≤ c ∧ c ≤ '9' then some (c.toNat - '0'.toNat) else none
    match cs with
    | a :: b :: _ =>
      match chomp? a, digit? a, chomp? b, digit? b with
      | some k, _, _, some n => some (k, n, 2)
      | some k, _, _, none => some (k, 0, 1)
      | none, some n, some k, _ => some (k, n, 2)
      | none, some n, none, _ => some (.clip, n, 1)
      | none, none, _, _ => if a = '0' then none else some (.clip, 0, 0)
    | [a] =>
      match chomp? a, digit? a with
      | some k, _ => some (k, 0, 1)
      | none, some n => some (.clip, n, 1)
      | none, none => if a = '0' then none else some (.clip, 0, 0)
    | [] => some (.clip, 0, 0)

def skipBlanks (c : Cursor) : Cursor := c.forward (c.rest.takeWhile isBlank).length

def skipComment (c : Cursor) : Cursor :=
  match c.rest with
  | '#' :: _ => c.forward (c.rest.takeWhile (!isBreak ·)).length
  | _ => c

/-- Skips indentation and empty lines; `indent` is zero as long as it is not known. Gives the breaks
and the widest indentation seen. -/
def blockBreaks (indent : Nat) : Nat → List Char → Nat → Cursor → Option (List Char × Nat × Cursor)
  | 0, breaks, widest, c => some (breaks, widest, c)
  | fuel + 1, breaks, widest, c =>
    let spaces := (c.rest.takeWhile (· == ' ')).length
    let c := c.forward (if indent = 0 then spaces else min spaces (indent - c.column))
    let widest := max widest c.column
    if (indent = 0 || c.column < indent) && c.rest.head? == some '\t' then none
    else if c.atBreak then
      blockBreaks indent fuel (breaks ++ [c.breakChar]) widest c.nextLine
    else some (breaks, widest, c)

/-- The lines of a block scalar with indentation `indent`. `broken` is the break before the line,
`breaks` are the empty lines after it. -/
def blockLines (folded : Bool) (chomping : Chomping) (indent : Nat) :
    Nat → (text broken breaks : List Char) → (startedBlank : Bool) → Cursor →
    Option (List Char × Cursor)
  | 0, _, _, _, _, _ => none
  | fuel + 1, text, broken, breaks, startedBlank, c =>
    if c.column = indent && !c.rest.isEmpty then do
      let blank := c.rest.head?.any isBlank
      let joint :=
        if folded && broken == ['\n'] && !startedBlank && !blank then
          if breaks.isEmpty then [' '] else breaks
        else broken ++ breaks
      let line := c.rest.takeWhile (!isBreak ·)
      let c := c.forward line.length
      let broken := if c.rest.isEmpty then [] else [c.breakChar]
      let (breaks, _, c) ← blockBreaks indent (c.rest.length + 1) [] 0 c.nextLine
      blockLines folded chomping indent fuel (text ++ joint ++ line) broken breaks blank c
    else
      some (match chomping with
        | .strip => (text, c)
        | .clip => (text ++ broken, c)
        | .keep => (text ++ broken ++ breaks, c))

/-- A block scalar after its mark, inside a collection indented by `outer` (counted from one; zero
at the top level). -/
def block (folded : Bool) (outer : Nat) (c : Cursor) : Option (List Char × Cursor) := do
  let (chomping, given, n) ← blockHeader c.rest
  let c := skipComment (skipBlanks (c.forward n))
  if !c.rest.isEmpty && !c.atBreak then none
  let c := c.nextLine
  let fixed := if given = 0 then 0 else if outer = 0 then given else outer - 1 + given
  let (breaks, widest, c) ← blockBreaks fixed (c.rest.length + 1) [] 0 c
  let indent := if fixed = 0 then max (max widest outer) 1 else fixed
  blockLines folded chomping indent (c.rest.length + 2) [] [] breaks false c

end CrossReference.Yaml.Scalar
