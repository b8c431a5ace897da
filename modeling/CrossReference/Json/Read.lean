import CrossReference.Json.Basic
import CrossReference.Json.Text

/-!
Reading a JSON document. Readers give the value and the text after it; each nested reader has one
unit less to spend, and a text of `n` characters needs no more than a few units for each.
-/

namespace CrossReference.Json

open Decimal

def isSpace (c : Char) : Bool := c == ' ' || c == '\t' || c == '\n' || c == '\r'

def skipSpace (cs : List Char) : List Char := cs.dropWhile isSpace

def whole? (cs : List Char) : Option (List Nat × List Char) :=
  match digits cs with
  | ([], _) => none
  | (0 :: _ :: _, _) => none
  | read => some read

def fraction? : List Char → Option (List Nat × List Char)
  | '.' :: cs => someDigits? cs
  | cs => some ([], cs)

def number? (cs : List Char) : Option (JsonNumber × List Char) := do
  let unsigned := match cs with
    | '-' :: cs => cs
    | cs => cs
  let (whole, afterWhole) ← whole? unsigned
  let (fraction, afterFraction) ← fraction? afterWhole
  let (exponent, rest) ← exponent? afterFraction
  return (⟨whole, fraction, exponent⟩, rest)

def word? : List Char → List Char → Option (List Char)
  | [], cs => some cs
  | w :: ws, c :: cs => if w = c then word? ws cs else none
  | _ :: _, [] => none

mutual

def value? : Nat → List Char → Option (Json × List Char)
  | 0, _ => none
  | fuel + 1, cs =>
    match skipSpace cs with
    | [] => none
    | '{' :: cs =>
      match skipSpace cs with
      | '}' :: rest => some (.object [], rest)
      | cs => (members? fuel cs).map fun (members, rest) => (.object members, rest)
    | '[' :: cs =>
      match skipSpace cs with
      | ']' :: rest => some (.array [], rest)
      | cs => (items? fuel cs).map fun (items, rest) => (.array items, rest)
    | '"' :: cs => (Text.body? cs).map fun (written, rest) => (.string written, rest)
    | 't' :: cs => (word? ['r', 'u', 'e'] cs).map (.bool true, ·)
    | 'f' :: cs => (word? ['a', 'l', 's', 'e'] cs).map (.bool false, ·)
    | 'n' :: cs => (word? ['u', 'l', 'l'] cs).map (.null, ·)
    | cs => (number? cs).map fun (n, rest) => (.number n, rest)

def items? : Nat → List Char → Option (List Json × List Char)
  | 0, _ => none
  | fuel + 1, cs => do
    let (item, rest) ← value? fuel cs
    match skipSpace rest with
    | ',' :: rest =>
      let (items, rest) ← items? fuel rest
      return (item :: items, rest)
    | ']' :: rest => return ([item], rest)
    | _ => none

def members? : Nat → List Char → Option (List (List Char × Json) × List Char)
  | 0, _ => none
  | fuel + 1, cs =>
    match skipSpace cs with
    | '"' :: cs => do
      let (key, rest) ← Text.body? cs
      match skipSpace rest with
      | ':' :: rest =>
        let (value, rest) ← value? fuel rest
        match skipSpace rest with
        | ',' :: rest =>
          let (members, rest) ← members? fuel rest
          return ((key, value) :: members, rest)
        | '}' :: rest => return ([(key, value)], rest)
        | _ => none
      | _ => none
    | _ => none

end

def read? (text : String) : Option Json := do
  let (value, rest) ← value? (2 * text.length + 2) text.toList
  if (skipSpace rest).isEmpty then some value else none

def maxDepth : Nat := 127

mutual

def isDecodable : Json → Bool
  | .number n => n.isFinite
  | .string written => (Text.decode? written).isSome
  | .array items => itemsDecodable items
  | .object members => membersDecodable members
  | _ => true

def itemsDecodable : List Json → Bool
  | [] => true
  | j :: js => j.isDecodable && itemsDecodable js

def membersDecodable : List (List Char × Json) → Bool
  | [] => true
  | (key, j) :: js => (Text.decode? key).isSome && j.isDecodable && membersDecodable js

end

/-- Whether a document can be read in full: nothing in it lacks a value, and it is not nested too
deep. -/
def isStrict (j : Json) : Bool := j.isDecodable && j.depth ≤ maxDepth

def text? : Json → Option String
  | .string written => (Text.decode? written).map String.ofList
  | _ => none

end CrossReference.Json
