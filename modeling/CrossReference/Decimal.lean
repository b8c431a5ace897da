/-!
Decimal numbers as they are written, and the doubles they stand for.
-/

namespace CrossReference.Decimal

def isDigit (c : Char) : Bool := '0' ≤ c && c ≤ '9'

def digitValue (c : Char) : Nat := c.toNat - '0'.toNat

def digits (cs : List Char) : List Nat × List Char :=
  ((cs.takeWhile isDigit).map digitValue, cs.dropWhile isDigit)

def someDigits? (cs : List Char) : Option (List Nat × List Char) :=
  match digits cs with
  | ([], _) => none
  | read => some read

def ofDigits (ds : List Nat) : Nat := ds.foldl (fun n d => n * 10 + d) 0

def exponent? : List Char → Option (Int × List Char)
  | c :: cs =>
    if c = 'e' ∨ c = 'E' then
      match cs with
      | '-' :: cs => (someDigits? cs).map fun (ds, rest) => (-(ofDigits ds : Int), rest)
      | '+' :: cs => (someDigits? cs).map fun (ds, rest) => ((ofDigits ds : Int), rest)
      | cs => (someDigits? cs).map fun (ds, rest) => ((ofDigits ds : Int), rest)
    else some (0, c :: cs)
  | [] => some (0, [])

def roundDiv (n d : Nat) : Nat :=
  let twice := 2 * (n % d)
  if twice < d || (twice == d && n / d % 2 == 0) then n / d else n / d + 1

/-- The nearest number with 53 significant bits to a quotient, a tie going to the even one. -/
def roundQuotient (n d : Nat) : Nat :=
  let unit := Nat.pow 2 ((n / d).log2 - 52)
  roundDiv n (d * unit) * unit

/-- The double nearest to the digits times a power of ten, in units of the least double,
`2 ^ (-1074)`; none when it lies beyond the greatest one. Powers are only worked out where the
result is neither zero nor out of reach. -/
def nearest? (ds : List Nat) (exponent : Int) : Option Nat :=
  let significand := ofDigits ds
  let least := Nat.pow 2 1074
  if significand = 0 then some 0
  else if exponent < -(ds.length + 400 : Int) then some 0
  else if 400 < exponent then none
  else
    let units :=
      if exponent < 0 then roundQuotient (significand * least) (Nat.pow 10 exponent.natAbs)
      else roundQuotient (significand * Nat.pow 10 exponent.natAbs * least) 1
    if units < Nat.pow 2 1024 * least then some units else none

end CrossReference.Decimal
