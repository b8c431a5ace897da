/-!
Placeholders of a message: an opening brace, text without braces, a closing brace.
-/

namespace CrossReference.Text.Placeholder

def isBrace (c : Char) : Bool := c == '{' || c == '}'

def close? (cs : List Char) : Option (List Char) :=
  match cs.dropWhile (!isBrace ·) with
  | c :: rest => if c = '}' then some rest else none
  | [] => none

def split? : List Char → Option (List Char × List Char)
  | [] => none
  | c :: cs =>
    match if c = '{' then close? cs else none with
    | some rest => some ([], rest)
    | none => (split? cs).map fun (before, after) => (c :: before, after)

theorem length_close? {cs rest : List Char} (h : close? cs = some rest) :
    rest.length < cs.length := by
  have hle := (List.dropWhile_sublist (l := cs) (!isBrace ·)).length_le
  unfold close? at h
  split at h
  · rename_i heq
    rw [heq] at hle
    split at h
    · cases h; exact hle
    · cases h
  · cases h

theorem length_split? {cs before after : List Char} (h : split? cs = some (before, after)) :
    after.length < cs.length := by
  induction cs generalizing before with
  | nil => simp [split?] at h
  | cons c cs ih =>
    unfold split? at h
    split at h
    · rename_i rest heq
      cases h
      split at heq
      · exact Nat.lt_succ_of_lt (length_close? heq)
      · cases heq
    · obtain ⟨⟨b, a⟩, hs, he⟩ := Option.map_eq_some_iff.1 h
      cases he
      exact Nat.lt_succ_of_lt (ih hs)

def fill (template : List Char) : List (List Char) → List Char
  | [] => template
  | arg :: args =>
    match split? template with
    | some (before, after) => before ++ arg ++ fill after args
    | none => template

def countIn (cs : List Char) : Nat :=
  match _ : split? cs with
  | some (_, after) => countIn after + 1
  | none => 0
termination_by cs.length
decreasing_by exact length_split? (by assumption)

/-- The template with its placeholders replaced by the arguments from left to right. Placeholders
without an argument stay, arguments without a placeholder are dropped, and what was put in is not
looked at again. -/
def substitute (template : String) (args : List String) : String :=
  String.ofList (fill template.toList (args.map String.toList))

def count (text : String) : Nat := countIn text.toList

end CrossReference.Text.Placeholder
