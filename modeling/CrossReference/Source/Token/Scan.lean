import CrossReference.Source.Token

/-!
Splitting a text into tokens. `reach` decides a token from its first character and what follows:
its kind, and how many more characters belong to it. The longest form wins; a form that cannot be
finished is cut after its last complete part, and a character that starts nothing is a token of its
own, so nothing is ever dropped.
-/

namespace CrossReference.Source.Token

def isBlank (c : Char) : Bool :=
  c == ' ' || c == '\t' || c == '\r' || c == '\n' || c == '\x0c'

def isWordStart (c : Char) : Bool := c.isAlpha || c == '_' || c == '$'

def isWordChar (c : Char) : Bool := isWordStart c || c.isDigit

def isQuote (c : Char) : Bool := c == '\'' || c == '"'

def isHexDigit (c : Char) : Bool :=
  c.isDigit || ('a' ≤ c && c ≤ 'f') || ('A' ≤ c && c ≤ 'F')

def runLength (p : Char → Bool) : List Char → Nat
  | [] => 0
  | c :: cs => if p c then runLength p cs + 1 else 0

theorem runLength_le (p : Char → Bool) (cs : List Char) : runLength p cs ≤ cs.length := by
  induction cs with
  | nil => simp [runLength]
  | cons c cs ih =>
    rw [runLength, List.length_cons]
    split
    · exact Nat.succ_le_succ ih
    · exact Nat.zero_le _

/-- A block comment after its opening: it goes on to the star before the closing slash, which stays
outside, or to the end of the text. -/
def blockLength : List Char → Nat
  | [] => 0
  | '*' :: '/' :: _ => 1
  | _ :: cs => blockLength cs + 1

/-- Whether a quoted text was closed, and how many characters were read up to its closing delimiter
or its last complete unit. -/
structure Extent where
  closed : Bool
  length : Nat
deriving DecidableEq

def Extent.after (n : Nat) (e : Extent) : Extent := { e with length := e.length + n }

def lineExtent (q : Char) : List Char → Extent
  | [] => ⟨false, 0⟩
  | '\n' :: _ => ⟨false, 0⟩
  | '\\' :: [] => ⟨false, 0⟩
  | '\\' :: '\n' :: _ => ⟨false, 0⟩
  | '\\' :: _ :: cs => (lineExtent q cs).after 2
  | c :: cs => if c = q then ⟨true, 1⟩ else (lineExtent q cs).after 1

/-- The rest of a string opened by three `q`. A unit is up to two quotes and one other character;
the first three quotes in a row that start a unit end the string. -/
def tripleExtent (q : Char) : List Char → Extent
  | [] => ⟨false, 0⟩
  | a :: as =>
    if a ≠ q then (tripleExtent q as).after 1
    else match as with
      | [] => ⟨false, 0⟩
      | b :: bs =>
        if b ≠ q then (tripleExtent q bs).after 2
        else match bs with
          | [] => ⟨false, 0⟩
          | c :: cs => if c = q then ⟨true, 3⟩ else (tripleExtent q cs).after 3

def opensTriple (q : Char) : List Char → Bool
  | a :: b :: _ => a == q && b == q
  | _ => false

def stringExtent (q : Char) (cs : List Char) : Extent :=
  if opensTriple q cs then (tripleExtent q (cs.drop 2)).after 2 else lineExtent q cs

def Extent.kind (e : Extent) : TokenKind := if e.closed then .string else .errorToken

def exponentLength : List Char → Nat
  | e :: cs =>
    if e == 'e' || e == 'E' then
      match cs with
      | s :: ds =>
        if s == '+' || s == '-' then
          if runLength Char.isDigit ds = 0 then 0 else runLength Char.isDigit ds + 2
        else if runLength Char.isDigit cs = 0 then 0 else runLength Char.isDigit cs + 1
      | [] => 0
    else 0
  | [] => 0

/-- A number after its first digit: a fraction needs a digit after its point, an exponent needs a
digit at all, and hexadecimal digits follow `0x` only. -/
def numberReach (first : Char) (cs : List Char) : TokenKind × Nat :=
  let hex := match cs with
    | x :: hs => if first == '0' && (x == 'x' || x == 'X') then runLength isHexDigit hs else 0
    | [] => 0
  if hex ≠ 0 then (.intNumber, hex + 1)
  else
    let whole := runLength Char.isDigit cs
    let rest := cs.drop whole
    let fraction := match rest with
      | '.' :: ds => runLength Char.isDigit ds
      | _ => 0
    if fraction ≠ 0 then
      (.floatNumber, whole + 1 + fraction + exponentLength (rest.drop (1 + fraction)))
    else if exponentLength rest ≠ 0 then (.floatNumber, whole + exponentLength rest)
    else (.intNumber, whole)

/-- Punctuation and operators, longer spellings first. A closing angle never joins another. -/
def marks : List (List Char × TokenKind) :=
  [(['.', '.', '.', '?'], .dot3),
   (['.', '.', '.'], .dot3), (['?', '.', '.'], .dot2), (['?', '?', '='], .operator),
   (['.', '.'], .dot2), (['?', '.'], .questionDot), (['=', '>'], .fatArrow),
   (['=', '='], .operator), (['!', '='], .operator), (['<', '='], .operator),
   (['>', '='], .operator), (['&', '&'], .operator), (['|', '|'], .operator),
   (['?', '?'], .operator), (['+', '='], .operator), (['-', '='], .operator),
   (['*', '='], .operator), (['/', '='], .operator), (['+', '+'], .operator),
   (['-', '-'], .operator), (['~', '/'], .operator), (['<', '<'], .operator),
   (['('], .lParen), ([')'], .rParen), (['{'], .lBrace), (['}'], .rBrace),
   (['['], .lBrack), ([']'], .rBrack), (['<'], .lAngle), (['>'], .rAngle), ([','], .comma),
   ([';'], .semicolon), (['.'], .dot), ([':'], .colon), (['?'], .question), (['='], .eq),
   (['@'], .atSign), (['!'], .bang), (['+'], .operator), (['-'], .operator), (['*'], .operator),
   (['/'], .operator), (['%'], .operator), (['&'], .operator), (['|'], .operator),
   (['^'], .operator), (['~'], .operator), (['#'], .operator)]

def markReach (cs : List Char) : TokenKind × Nat :=
  match marks.find? (fun m => m.1.isPrefixOf cs) with
  | some m => (m.2, m.1.length - 1)
  | none => (.errorToken, 0)

def wordReach (first : Char) (cs : List Char) : TokenKind × Nat :=
  let n := runLength isWordChar cs
  (TokenKind.ofWord (String.ofList (first :: cs.take n)), n)

/-- The mark `r` before a quote makes a raw string, unless nothing after the quote can be read. -/
def rawReach (q : Char) (cs : List Char) : TokenKind × Nat :=
  let e := stringExtent q cs
  if !e.closed && e.length = 0 then (.ident, 0) else (e.kind, e.length + 1)

def reach (c : Char) (cs : List Char) : TokenKind × Nat :=
  if isBlank c then (.whitespace, runLength isBlank cs)
  else if isQuote c then
    let e := stringExtent c cs
    (e.kind, e.length)
  else if c.isDigit then numberReach c cs
  else if isWordStart c then
    match cs with
    | q :: rest => if c == 'r' && isQuote q then rawReach q rest else wordReach c cs
    | [] => wordReach c cs
  else
    match c, cs with
    | '/', '/' :: rest => (.comment, runLength (· != '\n') rest + 1)
    | '/', '*' :: rest => (.errorToken, blockLength rest + 1)
    | _, _ => markReach (c :: cs)

def scanWithin : Nat → List Char → List Token
  | 0, _ => []
  | _, [] => []
  | n + 1, c :: cs =>
    ⟨(reach c cs).1, String.ofList (c :: cs.take (reach c cs).2)⟩ ::
      scanWithin n (cs.drop (reach c cs).2)

def scanChars (cs : List Char) : List Token := scanWithin cs.length cs

def scan (text : String) : List Token := scanChars text.toList

theorem scanWithin_eq {n : Nat} {cs : List Char} (h : cs.length ≤ n) :
    scanWithin n cs = scanChars cs := by
  unfold scanChars
  suffices ∀ (k m : Nat) (cs : List Char), cs.length ≤ k → cs.length ≤ m →
      scanWithin k cs = scanWithin m cs from this _ _ _ h (Nat.le_refl _)
  intro k
  induction k with
  | zero => intro m cs hk _; cases cs <;> cases m <;> simp_all [scanWithin]
  | succ k ih =>
    intro m cs hk hm
    cases cs with
    | nil => cases m <;> simp [scanWithin]
    | cons c cs =>
      cases m with
      | zero => simp at hm
      | succ m =>
        simp only [scanWithin, List.cons.injEq, true_and]
        apply ih <;> simp_all <;> omega

@[simp] theorem scanChars_nil : scanChars [] = [] := rfl

theorem scanChars_cons (c : Char) (cs : List Char) :
    scanChars (c :: cs) =
      ⟨(reach c cs).1, String.ofList (c :: cs.take (reach c cs).2)⟩ ::
        scanChars (cs.drop (reach c cs).2) := by
  have h : (cs.drop (reach c cs).2).length ≤ cs.length := by simp
  rw [scanChars, List.length_cons, scanWithin, scanWithin_eq h]

end CrossReference.Source.Token
