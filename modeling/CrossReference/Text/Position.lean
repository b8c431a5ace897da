/-!
Lines and columns are numbers of 32 bits, kept as natural numbers. Where two are added the sum wraps
around; builds that check for overflow stop there instead. A text of `UInt32.size` bytes or more has
no line table.
-/

namespace CrossReference.Text

def add32 (m n : Nat) : Nat := (m.toUInt32 + n.toUInt32).toNat

theorem add32_of_lt {m n : Nat} (h : m + n < UInt32.size) : add32 m n = m + n := by
  have hm : m.toUInt32.toNat = m := UInt32.toNat_ofNat_of_lt (by omega)
  have hn : n.toUInt32.toNat = n := UInt32.toNat_ofNat_of_lt (by omega)
  rw [add32, UInt32.toNat_add, hm, hn]
  exact Nat.mod_eq_of_lt h

/-- A line and a byte column, both counted from zero. -/
structure Position where
  line : Nat
  col : Nat
deriving DecidableEq

def Position.describe (p : Position) : String :=
  toString (add32 p.line 1) ++ ":" ++ toString (add32 p.col 1)

/-- Where the lines of a text start, and the length of the text, in bytes. -/
structure LineTable where
  starts : List Nat
  length : Nat

namespace LineTable

def startsAfter (offset : Nat) : List Char → List Nat
  | [] => []
  | c :: cs =>
    if c = '\n' then (offset + 1) :: startsAfter (offset + 1) cs
    else startsAfter (offset + c.utf8Size) cs

def ofText (text : String) : LineTable := ⟨0 :: startsAfter 0 text.toList, text.utf8ByteSize⟩

/-- The position of a byte; one past the end counts as the end. -/
def position (index : LineTable) (offset : Nat) : Position :=
  let o := min offset index.length
  let line := (index.starts.takeWhile (· ≤ o)).length - 1
  ⟨line, o - index.starts.getD line 0⟩

/-- The byte at a position; none when there is no such line. A column past the end of the text
counts as the end, one past the end of its line runs on. It is added before the sum is cut to the
text, so it may wrap around. -/
def offset? (index : LineTable) (p : Position) : Option Nat :=
  index.starts[p.line]?.map fun start => min (add32 start p.col) index.length

example : (ofText "a\nb").offset? ⟨1, 4294967295⟩ = some 1 := by decide +kernel

def lineCount (index : LineTable) : Nat := index.starts.length

end LineTable

end CrossReference.Text
