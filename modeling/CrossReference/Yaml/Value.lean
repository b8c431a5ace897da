import CrossReference.Decimal
import CrossReference.Yaml.Document

/-!
The values of YAML nodes: what the text of a scalar stands for, and when two values are the same.
-/

namespace CrossReference.Yaml

/-- A double; a finite one by its multiple of the least one. -/
inductive Double where
  | nan
  | infinite (negative : Bool)
  | finite (negative : Bool) (units : Nat)
deriving DecidableEq

inductive Value where
  | null
  | bool (b : Bool)
  | integer (n : Int)
  | double (x : Double)
  | text (text : String)
  | sequence (items : List Value)
  | mapping (entries : List (Value × Value))
  | tagged (tag : String) (value : Value)

namespace Double

def ofDecimal? (cs : List Char) : Option Double := do
  let (negative, cs) := match cs with
    | '-' :: cs => (true, cs)
    | cs => (false, cs)
  let (whole, cs) := Decimal.digits cs
  let (fraction, cs) := match cs with
    | '.' :: cs => Decimal.digits cs
    | cs => ([], cs)
  if whole.isEmpty && fraction.isEmpty then none
  let (exponent, rest) ← Decimal.exponent? cs
  if !rest.isEmpty then none
  let units ← Decimal.nearest? (whole ++ fraction) (exponent - fraction.length)
  return .finite (negative && units != 0) units

/-- The double a text stands for; one sign may stand in front, but not before `.nan`. -/
def ofText? (text : String) : Option Double :=
  if [".nan", ".NaN", ".NAN"].contains text then some .nan
  else if ["-.inf", "-.Inf", "-.INF"].contains text then some (.infinite true)
  else if [".inf", ".Inf", ".INF", "+.inf", "+.Inf", "+.INF"].contains text then
    some (.infinite false)
  else match text.toList with
    | '+' :: '-' :: _ => none
    | '+' :: cs => ofDecimal? cs
    | cs => ofDecimal? cs

end Double

namespace Integer

def ofDigits? (radix : Nat) (cs : List Char) : Option Nat :=
  if cs.isEmpty then none
  else cs.foldlM
    (fun n c => (hexDigit? c).bind fun d => if d < radix then some (n * radix + d) else none) 0

def natural? : List Char → Option Nat
  | '0' :: 'x' :: cs => ofDigits? 16 cs
  | '0' :: 'o' :: cs => ofDigits? 8 cs
  | '0' :: 'b' :: cs => ofDigits? 2 cs
  | '0' :: _ :: _ => none
  | cs => ofDigits? 10 cs

def ofText? (text : String) : Option Int :=
  match text.toList with
  | '-' :: cs => (natural? cs).map fun n => -(n : Int)
  | '+' :: cs => (natural? cs).map fun n => (n : Int)
  | cs => (natural? cs).map fun n => (n : Int)

def fits (bits : Nat) (n : Int) : Bool :=
  -(Nat.pow 2 (bits - 1) : Int) ≤ n && n < (Nat.pow 2 bits : Int)

def isPadded (text : String) : Bool :=
  let unsigned := match text.toList with
    | '-' :: cs => cs
    | '+' :: cs => cs
    | cs => cs
  1 < unsigned.length && unsigned.head? == some '0' && unsigned.all Decimal.isDigit

end Integer

namespace Value

/-- What a plain text stands for. An integer of more than 64 bits is refused as long as it has no
more than 128; beyond that it is none. -/
def ofPlain? (text : String) : Option Value :=
  if text.isEmpty || Scalar.isNullWord text then some .null
  else match Scalar.flagWord? text with
    | some b => some (.bool b)
    | none =>
      match (Integer.ofText? text).filter (Integer.fits 128) with
      | some n => if Integer.fits 64 n then some (.integer n) else none
      | none =>
        if Integer.isPadded text then some (.text text)
        else some (((Double.ofText? text).map .double).getD (.text text))

def ofScalar? (s : Scalar) : Option Value :=
  let untagged := if s.style = .plain then ofPlain? s.text else some (.text s.text)
  match s.tag with
  | none => untagged
  | some .garbled => untagged
  | some .bare => untagged.map (.tagged "!")
  | some (.named name) => untagged.map (.tagged name)
  | some .null => if Scalar.isNullWord s.text then some .null else none
  | some .bool => (Scalar.flagWord? s.text).map .bool
  | some .int => ((Integer.ofText? s.text).filter (Integer.fits 64)).map .integer
  | some .float => (Double.ofText? s.text).map .double
  | some .other => some (.text s.text)

def withTag (tag : Option Tag) (value : Value) : Value :=
  match tag.bind Tag.name? with
  | some name => .tagged name value
  | none => value

mutual

def same : Value → Value → Bool
  | .null, .null => true
  | .bool a, .bool b => a == b
  | .integer m, .integer n => m == n
  | .double x, .double y => x == y
  | .text s, .text t => s == t
  | .sequence as, .sequence bs => sameItems as bs
  | .mapping as, .mapping bs => as.length == bs.length && includes as bs
  | .tagged s a, .tagged t b => s == t && same a b
  | _, _ => false

def sameItems : List Value → List Value → Bool
  | [], [] => true
  | a :: as, b :: bs => same a b && sameItems as bs
  | _, _ => false

def includes (others : List (Value × Value)) : List (Value × Value) → Bool
  | [] => true
  | (key, value) :: entries =>
    others.any (fun (k, v) => same k key && same v value) && includes others entries

end

def distinct : List Value → Bool
  | [] => true
  | value :: values => !values.any (same value) && distinct values

end Value

def maxDepth : Nat := 128

/-- The value of a node whose collections are nested at most `depth` deep. Keys of a mapping are
values too, and differ. -/
def Document.value (doc : Document) : (depth : Nat) → Yaml → Reading Value
  | 0, y => do
    match ← doc.node y with
    | .scalar s => Value.ofScalar? s
    | _ => failure
  | depth + 1, y => do
    match ← doc.node y with
    | .scalar s => Value.ofScalar? s
    | .sequence tag items =>
      return .withTag tag (.sequence (← items.mapM (doc.value depth)))
    | .mapping tag entries =>
      let entries ← entries.mapM fun (k, v) =>
        return (← doc.value depth k, ← doc.value depth v)
      if Value.distinct (entries.map Prod.fst) then return .withTag tag (.mapping entries)
      else failure
    | _ => failure

end CrossReference.Yaml
