import CrossReference.Text.IdentifierTable

namespace CrossReference.Text

def inRanges (n : Nat) : List (Nat × Nat) → Bool
  | [] => false
  | (lo, hi) :: rest => if n < lo then false else if n ≤ hi then true else inRanges n rest

def isIdentifierStart (c : Char) : Bool :=
  c == '_' || c == '$' || inRanges c.toNat startRanges

def isIdentifierContinue (c : Char) : Bool :=
  c == '$' || inRanges c.toNat startRanges || inRanges c.toNat continueRanges

def isIdentifier (text : String) : Bool :=
  match text.toList with
  | [] => false
  | c :: cs => isIdentifierStart c && cs.all isIdentifierContinue

end CrossReference.Text
