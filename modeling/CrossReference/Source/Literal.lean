import CrossReference.Source.Node

/-!
The value of a string literal. A raw string is its body; any other has its escapes decoded, and has
no value when it interpolates or holds an escape that denotes no character.
-/

namespace CrossReference.Source.Literal

def hexDigit? (c : Char) : Option Nat :=
  if '0' ≤ c ∧ c ≤ '9' then some (c.toNat - '0'.toNat)
  else if 'a' ≤ c ∧ c ≤ 'f' then some (c.toNat - 'a'.toNat + 10)
  else if 'A' ≤ c ∧ c ≤ 'F' then some (c.toNat - 'A'.toNat + 10)
  else none

def hexDigits? (value : Nat) : List Char → Option Nat
  | [] => some value
  | c :: cs => do hexDigits? (value * 16 + (← hexDigit? c)) cs

def hexNumber? : List Char → Option Nat
  | [] => none
  | [c] => hexDigits? 0 [c]
  | '+' :: cs => hexDigits? 0 cs
  | cs => hexDigits? 0 cs

def scalar? (n : Nat) : Option Char := if n.isValidChar then some (Char.ofNat n) else none

def hexChar? (digits : List Char) : Option Char := (hexNumber? digits).bind scalar?

def simpleEscape (c : Char) : Char :=
  match c with
  | 'n' => '\n'
  | 't' => '\t'
  | 'r' => '\r'
  | 'b' => '\x08'
  | 'f' => '\x0c'
  | 'v' => '\x0b'
  | c => c

/-- The character that the escape after a backslash denotes, and what follows it: `x` with up to two
characters of a number, `u` with four or with a braced number, and otherwise one character. -/
def escape? : List Char → Option (Char × List Char)
  | [] => none
  | 'x' :: cs => (hexChar? (cs.take 2)).map (·, cs.drop 2)
  | 'u' :: '{' :: cs =>
    if cs.contains '}' then
      (hexChar? (cs.takeWhile (· != '}'))).map (·, (cs.dropWhile (· != '}')).tail)
    else none
  | 'u' :: cs => if cs.length < 4 then none else (hexChar? (cs.take 4)).map (·, cs.drop 4)
  | c :: cs => some (simpleEscape c, cs)

theorem length_of_escape? {cs : List Char} {r : Char × List Char} (h : escape? cs = some r) :
    r.2.length ≤ cs.length := by
  unfold escape? at h
  split at h
  · simp at h
  · obtain ⟨_, _, rfl⟩ := Option.map_eq_some_iff.1 h
    simp; omega
  · split at h
    · obtain ⟨_, _, rfl⟩ := Option.map_eq_some_iff.1 h
      have := (List.dropWhile_sublist (l := by assumption) (· != '}')).length_le
      simp only [List.length_tail, List.length_cons]
      omega
    · simp at h
  · split at h
    · simp at h
    · obtain ⟨_, _, rfl⟩ := Option.map_eq_some_iff.1 h
      simp; omega
  · cases h
    simp

def unescape? : List Char → Option (List Char)
  | [] => some []
  | '$' :: _ => none
  | '\\' :: cs =>
    match _ : escape? cs with
    | some r => (unescape? r.2).map (r.1 :: ·)
    | none => none
  | c :: cs => (unescape? cs).map (c :: ·)
termination_by cs => cs.length
decreasing_by
  · have := length_of_escape? (by assumption)
    simp; omega
  · simp

def delimiters : List (List Char) := [['\'', '\'', '\''], ['"', '"', '"'], ['\''], ['"']]

def encloses (q cs : List Char) : Bool :=
  2 * q.length ≤ cs.length && q.isPrefixOf cs && q.isSuffixOf cs

def body? (cs : List Char) : Option (List Char) :=
  (delimiters.find? (encloses · cs)).map fun q =>
    (cs.drop q.length).take (cs.length - 2 * q.length)

def unquote? (text : String) : Option String :=
  match text.toList with
  | 'r' :: cs => (body? cs).map String.ofList
  | cs => ((body? cs).bind unescape?).map String.ofList

end Literal

namespace Node

def stringValue? (n : Node) : Option String :=
  if n.kind = .stringLiteral then
    let strings := n.tokens.filter (·.kind == .string)
    if strings.isEmpty then none
    else (strings.mapM fun t => Literal.unquote? t.text).map String.join
  else none

end Node

end CrossReference.Source
