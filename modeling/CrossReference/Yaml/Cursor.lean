import CrossReference.Yaml.Basic

namespace CrossReference.Yaml

/-- The text ahead and where it stands: columns count characters, the offset counts bytes. -/
structure Cursor where
  rest : List Char
  line : Nat
  column : Nat
  offset : Nat

namespace Cursor

def ofText (cs : List Char) : Cursor := ⟨cs, 0, 0, 0⟩

def byteLength (cs : List Char) : Nat := cs.foldl (fun n c => n + c.utf8Size) 0

def forward (n : Nat) (c : Cursor) : Cursor :=
  ⟨c.rest.drop n, c.line, c.column + n, c.offset + byteLength (c.rest.take n)⟩

def nextLine (c : Cursor) : Cursor :=
  match c.rest with
  | '\r' :: '\n' :: rest => ⟨rest, c.line + 1, 0, c.offset + 2⟩
  | b :: rest => ⟨rest, c.line + 1, 0, c.offset + b.utf8Size⟩
  | [] => c

def breakChar (c : Cursor) : Char :=
  match c.rest with
  | '\u2028' :: _ => '\u2028'
  | '\u2029' :: _ => '\u2029'
  | _ => '\n'

def atBreak (c : Cursor) : Bool :=
  match c.rest with
  | b :: _ => isBreak b
  | [] => false

def atDocumentMark (c : Cursor) : Bool :=
  c.column == 0 &&
    match c.rest with
    | '-' :: '-' :: '-' :: rest => atGap rest
    | '.' :: '.' :: '.' :: rest => atGap rest
    | _ => false

end Cursor

structure Gap where
  blanks : List Char
  breaks : List Char

/-- What a gap stands for: one break is folded into a blank, of more the first is dropped. -/
def Gap.text (gap : Gap) : List Char :=
  match gap.breaks with
  | [] => gap.blanks
  | ['\n'] => [' ']
  | '\n' :: more => more
  | breaks => breaks

def Gap.none : Gap := ⟨[], []⟩

def readGap (indent : Nat) : Nat → Gap → Cursor → Option (Gap × Cursor)
  | 0, gap, c => some (gap, c)
  | fuel + 1, gap, c =>
    match c.rest with
    | [] => some (gap, c)
    | b :: _ =>
      if isBlank b then
        if gap.breaks.isEmpty then
          readGap indent fuel { gap with blanks := gap.blanks ++ [b] } (c.forward 1)
        else if b = '\t' ∧ c.column < indent then none
        else readGap indent fuel gap (c.forward 1)
      else if isBreak b then
        readGap indent fuel { gap with breaks := gap.breaks ++ [c.breakChar] } c.nextLine
      else some (gap, c)

end CrossReference.Yaml
