/-!
Tables that keep the order in which their keys first came.
-/

namespace CrossReference

abbrev Table (κ β : Type) := List (κ × β)

namespace Table

variable {κ β : Type} [DecidableEq κ]

def get? (table : Table κ β) (key : κ) : Option β :=
  (table.find? (·.1 = key)).map Prod.snd

def contains (table : Table κ β) (key : κ) : Bool := table.any (·.1 = key)

/-- Stores a value; a key that is already there keeps its place. -/
def put : Table κ β → κ → β → Table κ β
  | [], key, value => [(key, value)]
  | e :: rest, key, value =>
    if e.1 = key then (key, value) :: rest else e :: put rest key value

def erase (table : Table κ β) (key : κ) : Table κ β := table.filter (·.1 ≠ key)

theorem get?_put_self (table : Table κ β) (key : κ) (value : β) :
    (table.put key value).get? key = some value := by
  induction table with
  | nil => simp [put, get?]
  | cons e rest ih =>
    by_cases h : e.1 = key
    · simp [put, get?, h]
    · simpa [put, get?, h] using ih

theorem get?_put_of_ne (table : Table κ β) {key other : κ} (value : β) (h : other ≠ key) :
    (table.put key value).get? other = table.get? other := by
  induction table with
  | nil => simp [put, get?, Ne.symm h]
  | cons e rest ih =>
    by_cases hk : e.1 = key
    · simp [put, get?, hk, Ne.symm h]
    · by_cases ho : e.1 = other
      · subst ho
        simp [put, get?, h]
      · simpa [put, get?, hk, ho] using ih

end Table

end CrossReference
