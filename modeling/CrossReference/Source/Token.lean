import CrossReference.Source.Kind

namespace CrossReference.Source

structure Token where
  kind : TokenKind
  text : String
deriving DecidableEq

namespace Token

def isTrivia (t : Token) : Bool := t.kind.isTrivia

def size (t : Token) : Nat := t.text.utf8ByteSize

end Token

def spelling (tokens : List Token) : String := String.join (tokens.map Token.text)

def byteSize : List Token → Nat
  | [] => 0
  | t :: ts => t.size + byteSize ts

@[simp] theorem byteSize_nil : byteSize [] = 0 := rfl

@[simp] theorem byteSize_cons (t : Token) (ts : List Token) :
    byteSize (t :: ts) = t.size + byteSize ts := rfl

@[simp] theorem byteSize_append (xs ys : List Token) :
    byteSize (xs ++ ys) = byteSize xs + byteSize ys := by
  induction xs with
  | nil => simp
  | cons x xs ih => simp [ih, Nat.add_assoc]

end CrossReference.Source
