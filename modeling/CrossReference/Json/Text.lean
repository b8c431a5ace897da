/-!
The text of JSON strings: `body?` reads what is written between the quotes, `decode?` gives its
value.
-/

namespace CrossReference.Json.Text

def hexDigit? (c : Char) : Option Nat :=
  if '0' ≤ c ∧ c ≤ '9' then some (c.toNat - '0'.toNat)
  else if 'a' ≤ c ∧ c ≤ 'f' then some (c.toNat - 'a'.toNat + 10)
  else if 'A' ≤ c ∧ c ≤ 'F' then some (c.toNat - 'A'.toNat + 10)
  else none

def unit? : List Char → Option Nat
  | a :: b :: c :: d :: _ => do
    return (((← hexDigit? a) * 16 + (← hexDigit? b)) * 16 + (← hexDigit? c)) * 16 + (← hexDigit? d)
  | _ => none

def simple? (c : Char) : Option Char :=
  match c with
  | '"' => some '"'
  | '\\' => some '\\'
  | '/' => some '/'
  | 'b' => some '\x08'
  | 'f' => some '\x0c'
  | 'n' => some '\n'
  | 'r' => some '\r'
  | 't' => some '\t'
  | _ => none

def body? : List Char → Option (List Char × List Char)
  | [] => none
  | '"' :: cs => some ([], cs)
  | '\\' :: 'u' :: cs =>
    if (unit? cs).isSome then
      (body? cs).map fun (written, rest) => ('\\' :: 'u' :: written, rest)
    else none
  | '\\' :: c :: cs =>
    if (simple? c).isSome then
      (body? cs).map fun (written, rest) => ('\\' :: c :: written, rest)
    else none
  | c :: cs =>
    if c = '\\' ∨ c.toNat < 0x20 then none
    else (body? cs).map fun (written, rest) => (c :: written, rest)

def isHighSurrogate (n : Nat) : Bool := 0xD800 ≤ n && n < 0xDC00

def isLowSurrogate (n : Nat) : Bool := 0xDC00 ≤ n && n < 0xE000

def decode? : List Char → Option (List Char)
  | [] => some []
  | '\\' :: 'u' :: a :: b :: c :: d :: rest => do
    let unit ← unit? [a, b, c, d]
    if isLowSurrogate unit then none
    else if isHighSurrogate unit then
      match rest with
      | '\\' :: 'u' :: e :: f :: g :: h :: rest =>
        let low ← unit? [e, f, g, h]
        if isLowSurrogate low then
          (decode? rest).map
            (Char.ofNat (0x10000 + (unit - 0xD800) * 0x400 + (low - 0xDC00)) :: ·)
        else none
      | _ => none
    else (decode? rest).map (Char.ofNat unit :: ·)
  | '\\' :: c :: rest => do
    let value ← simple? c
    (decode? rest).map (value :: ·)
  | c :: rest => (decode? rest).map (c :: ·)

end CrossReference.Json.Text
