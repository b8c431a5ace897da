import CrossReference.Decimal

/-!
JSON documents. Strings and keys are kept as they are written between their quotes, and numbers by
their digits, because not every reader of a document asks for their values.
-/

namespace CrossReference

structure JsonNumber where
  whole : List Nat
  fraction : List Nat
  exponent : Int
deriving DecidableEq

inductive Json where
  | null
  | bool (b : Bool)
  | number (n : JsonNumber)
  | string (written : List Char)
  | array (items : List Json)
  | object (members : List (List Char × Json))

namespace JsonNumber

/-- Significant digits are kept as long as the significand stays within 64 bits. -/
def limit : Nat := Nat.pow 2 64

def wholeParts (significand : Nat) : List Nat → Nat × Nat
  | [] => (significand, 0)
  | d :: ds =>
    if significand * 10 + d < limit then wholeParts (significand * 10 + d) ds
    else (significand, ds.length + 1)

def fractionParts (significand : Nat) : List Nat → Nat × Nat
  | [] => (significand, 0)
  | d :: ds =>
    if significand * 10 + d < limit then
      let (s, n) := fractionParts (significand * 10 + d) ds
      (s, n + 1)
    else (significand, 0)

def toDouble (n : Nat) : Nat := Decimal.roundQuotient n 1

/-- The least number that no longer rounds to a double. -/
def overflow : Nat := Nat.pow 2 1024 - Nat.pow 2 970

def isFinite (n : JsonNumber) : Bool :=
  let (w, dropped) := wholeParts 0 n.whole
  let (significand, kept) := fractionParts w n.fraction
  let exponent : Int := n.exponent + dropped - kept
  significand == 0 || exponent < 0 ||
    (exponent ≤ 308 && toDouble significand * toDouble (Nat.pow 10 exponent.toNat) < overflow)

end JsonNumber

namespace Json

mutual

def depth : Json → Nat
  | .array items => depthItems items + 1
  | .object members => depthMembers members + 1
  | _ => 0

def depthItems : List Json → Nat
  | [] => 0
  | j :: js => max j.depth (depthItems js)

def depthMembers : List (List Char × Json) → Nat
  | [] => 0
  | (_, j) :: js => max j.depth (depthMembers js)

end

end Json

end CrossReference
