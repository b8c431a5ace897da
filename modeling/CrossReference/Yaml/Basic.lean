/-!
YAML nodes. Of a scalar its tag and the style it was written in are kept, because they decide what
its text stands for. An anchor numbers a node, and a reference stands for the node of that number.
-/

namespace CrossReference

namespace Yaml

inductive Tag where
  | null | bool | int | float
  | bare
  | named (name : String)
  | garbled
  | other
deriving DecidableEq

inductive Style where
  | plain | quoted | literal | folded
deriving DecidableEq

structure Scalar where
  tag : Option Tag
  style : Style
  text : String
deriving DecidableEq

end Yaml

inductive Yaml where
  | scalar (scalar : Yaml.Scalar)
  | sequence (tag : Option Yaml.Tag) (items : List Yaml)
  | mapping (tag : Option Yaml.Tag) (entries : List (Yaml × Yaml))
  | anchored (number : Nat) (node : Yaml)
  | reference (number : Nat)

namespace Yaml

def absent : Yaml := .scalar ⟨none, .plain, ""⟩

inductive Token where
  | directive | documentStart | documentEnd
  | blockSequence | blockMapping | blockEnd
  | flowSequenceStart | flowSequenceEnd | flowMappingStart | flowMappingEnd
  | blockEntry | flowEntry | key | value
  | anchor (number : Nat)
  | reference (number : Nat)
  | tag (tag : Tag)
  | scalar (style : Style) (text : String)
deriving DecidableEq

def isBreak (c : Char) : Bool :=
  c == '\n' || c == '\r' || c == '\x85' || c == '\u2028' || c == '\u2029'

def isBlank (c : Char) : Bool := c == ' ' || c == '\t'

def atGap : List Char → Bool
  | [] => true
  | c :: _ => isBlank c || isBreak c

def isWordChar (c : Char) : Bool := c.isAlphanum || c == '_' || c == '-'

def isAllowed (c : Char) : Bool :=
  let n := c.toNat
  n == 0x9 || n == 0xA || n == 0xD || (0x20 ≤ n && n ≤ 0x7E) || n == 0x85 ||
    (0xA0 ≤ n && n ≤ 0xD7FF) || (0xE000 ≤ n && n ≤ 0xFFFD) || 0x10000 ≤ n

def hexDigit? (c : Char) : Option Nat :=
  if '0' ≤ c ∧ c ≤ '9' then some (c.toNat - '0'.toNat)
  else if 'a' ≤ c ∧ c ≤ 'f' then some (c.toNat - 'a'.toNat + 10)
  else if 'A' ≤ c ∧ c ≤ 'F' then some (c.toNat - 'A'.toNat + 10)
  else none

end Yaml

end CrossReference
