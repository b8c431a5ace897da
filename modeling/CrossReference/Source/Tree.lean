import CrossReference.Source.Token

/-!
The tree of a file. Every token of the file is a leaf, so a tree spells its file.
-/

namespace CrossReference.Source

inductive Tree where
  | node (kind : NodeKind) (children : List Tree)
  | leaf (token : Token)

namespace Tree

mutual

def tokens : Tree → List Token
  | .node _ children => tokensAll children
  | .leaf t => [t]

def tokensAll : List Tree → List Token
  | [] => []
  | t :: ts => t.tokens ++ tokensAll ts

end

mutual

def size : Tree → Nat
  | .node _ children => sizeAll children
  | .leaf t => t.size

def sizeAll : List Tree → Nat
  | [] => 0
  | t :: ts => t.size + sizeAll ts

end

@[simp] theorem tokensAll_append (xs ys : List Tree) :
    tokensAll (xs ++ ys) = tokensAll xs ++ tokensAll ys := by
  induction xs with
  | nil => simp [tokensAll]
  | cons x xs ih => simp [tokensAll, ih]

@[simp] theorem tokensAll_leaves (ts : List Token) : tokensAll (ts.map leaf) = ts := by
  induction ts with
  | nil => rfl
  | cons t ts ih => simp [tokensAll, tokens, ih]

mutual

theorem size_eq (t : Tree) : t.size = byteSize t.tokens := by
  cases t with
  | node kind children => simpa [size, tokens] using sizeAll_eq children
  | leaf t => simp [size, tokens]

theorem sizeAll_eq (ts : List Tree) : sizeAll ts = byteSize (tokensAll ts) := by
  cases ts with
  | nil => rfl
  | cons t ts => simp [sizeAll, tokensAll, size_eq t, sizeAll_eq ts]

end

def text (t : Tree) : String := spelling t.tokens

def token? : Tree → Option Token
  | .node _ _ => none
  | .leaf t => some t

end Tree

end CrossReference.Source
