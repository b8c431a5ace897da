import CrossReference.Source.Tree

/-!
A file half read: the tokens still ahead, the trivia between them, and the trees built so far. The
grammar sees `ahead` only, so it cannot depend on the trivia.
-/

namespace CrossReference.Source

structure ParseError where
  message : String
  offset : Nat
deriving DecidableEq

def ParseError.describe (e : ParseError) : String :=
  e.message ++ " at offset " ++ toString e.offset

def leadingTrivia (tokens : List Token) : List Token := tokens.takeWhile Token.isTrivia

def significant (tokens : List Token) : List Token := tokens.filter (!·.isTrivia)

def gapsOf : List Token → List (List Token)
  | [] => []
  | t :: ts => if t.isTrivia then gapsOf ts else leadingTrivia ts :: gapsOf ts

def weave : List Token → List (List Token) → List Token
  | [], _ => []
  | t :: ts, [] => t :: weave ts []
  | t :: ts, g :: gs => t :: (g ++ weave ts gs)

theorem leadingTrivia_append_weave (tokens : List Token) :
    leadingTrivia tokens ++ weave (significant tokens) (gapsOf tokens) = tokens := by
  induction tokens with
  | nil => rfl
  | cons t ts ih =>
    by_cases h : t.isTrivia <;>
      simp_all [leadingTrivia, significant, gapsOf, weave]

/-- `pending` are the trivia before the next significant token that no tree holds yet, `place` is
where that token starts, `taken` counts the tokens already in a tree. `built` and `errors` have the
latest first. -/
structure Builder where
  pending : List Token
  ahead : List Token
  gaps : List (List Token)
  place : Nat
  taken : Nat
  built : List Tree
  errors : List ParseError

namespace Builder

def ofTokens (tokens : List Token) : Builder where
  pending := leadingTrivia tokens
  ahead := significant tokens
  gaps := gapsOf tokens
  place := byteSize (leadingTrivia tokens)
  taken := 0
  built := []
  errors := []

def left (b : Builder) : List Token := b.pending ++ weave b.ahead b.gaps

def attach (b : Builder) : Builder :=
  { b with
    pending := []
    taken := b.taken + b.pending.length
    built := (b.pending.map Tree.leaf).reverse ++ b.built }

def take (b : Builder) : Builder :=
  match b.attach with
  | ⟨_, [], gaps, place, taken, built, errors⟩ => ⟨[], [], gaps, place, taken, built, errors⟩
  | ⟨_, t :: ts, gaps, place, taken, built, errors⟩ =>
    ⟨gaps.headD [], ts, gaps.tail, place + t.size + byteSize (gaps.headD []), taken + 1,
      .leaf t :: built, errors⟩

def report (message : String) (b : Builder) : Builder :=
  { b with errors := ⟨message, b.place⟩ :: b.errors }

def opened (b : Builder) : Builder := { b.attach with built := [] }

def closeNode (kind : NodeKind) (b inner : Builder) : Builder :=
  { inner with built := .node kind inner.built.reverse :: b.attach.built }

def closeGroup (b inner : Builder) : Builder :=
  { inner with built := inner.built ++ b.attach.built }

def wrap (kind : NodeKind) (b : Builder) : Builder :=
  { b with built := [.node kind b.built.reverse] }

def atEnd (b : Builder) : Bool := b.ahead.isEmpty

@[simp] theorem left_ofTokens (tokens : List Token) : (ofTokens tokens).left = tokens :=
  leadingTrivia_append_weave tokens

end Builder

end CrossReference.Source
