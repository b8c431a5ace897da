import CrossReference.Source.Token.Scan

namespace CrossReference.Source

def chars (ts : List Token) : List Char := ts.flatMap fun t => t.text.toList

@[simp] theorem chars_nil : chars [] = [] := rfl

@[simp] theorem chars_cons (t : Token) (ts : List Token) :
    chars (t :: ts) = t.text.toList ++ chars ts := rfl

@[simp] theorem chars_append (ts us : List Token) : chars (ts ++ us) = chars ts ++ chars us := by
  simp [chars]

theorem toList_spelling (ts : List Token) : (spelling ts).toList = chars ts := by
  simp [spelling, chars, List.flatMap_map]

theorem spelling_eq (ts : List Token) : spelling ts = String.ofList (chars ts) := by
  rw [← toList_spelling, String.ofList_toList]

theorem spelling_append (ts us : List Token) :
    spelling (ts ++ us) = spelling ts ++ spelling us := by
  simp [spelling_eq]

theorem utf8ByteSize_spelling (ts : List Token) : (spelling ts).utf8ByteSize = byteSize ts := by
  induction ts with
  | nil => rfl
  | cons t ts ih =>
    have hs : spelling (t :: ts) = t.text ++ spelling ts := by simp [spelling]
    rw [hs, String.utf8ByteSize_append, ih]
    rfl

namespace Token

def first (c : Char) (cs : List Char) : Token :=
  ⟨(reach c cs).1, String.ofList (c :: cs.take (reach c cs).2)⟩

@[simp] theorem kind_first (c : Char) (cs : List Char) : (first c cs).kind = (reach c cs).1 := rfl

@[simp] theorem toList_text_first (c : Char) (cs : List Char) :
    (first c cs).text.toList = c :: cs.take (reach c cs).2 := by
  simp [first]

inductive Scans : List Char → List Token → List Char → Prop
  | done (rest : List Char) : Scans rest [] rest
  | next {c : Char} {cs : List Char} {ts : List Token} {rest : List Char} :
      Scans (cs.drop (reach c cs).2) ts rest → Scans (c :: cs) (first c cs :: ts) rest

theorem scans_scanChars (cs : List Char) : Scans cs (scanChars cs) [] := by
  induction h : cs.length using Nat.strongRecOn generalizing cs with
  | _ n ih =>
    cases cs with
    | nil => exact .done []
    | cons c cs =>
      rw [scanChars_cons]
      refine .next (ih _ ?_ _ rfl)
      rw [← h, List.length_drop, List.length_cons]
      omega

namespace Scans

variable {cs rest : List Char} {ts us : List Token}

theorem scanChars_eq (h : Scans cs ts rest) : scanChars cs = ts ++ scanChars rest := by
  induction h with
  | done rest => rfl
  | next _ ih =>
    rw [scanChars_cons, ih]
    rfl

theorem chars_eq (h : Scans cs ts rest) : cs = chars ts ++ rest := by
  induction h with
  | done rest => rfl
  | next _ ih =>
    rw [chars_cons, toList_text_first, List.append_assoc, ← ih, List.cons_append,
      List.take_append_drop]

theorem text_ne_empty (h : Scans cs ts rest) : ∀ t ∈ ts, t.text ≠ "" := by
  induction h with
  | done rest => simp
  | @next c cs _ _ _ ih =>
    intro t ht
    rcases List.mem_cons.1 ht with rfl | ht
    · intro he
      have := toList_text_first c cs
      simp [he] at this
    · exact ih t ht

theorem exists_first (h : Scans cs ts rest) : ∀ t ∈ ts, ∃ c cs, t = first c cs := by
  induction h with
  | done => simp
  | next _ ih => exact List.forall_mem_cons.2 ⟨⟨_, _, rfl⟩, ih⟩

theorem append {mid : List Char} (h : Scans cs ts mid) (h' : Scans mid us rest) :
    Scans cs (ts ++ us) rest := by
  induction h with
  | done => exact h'
  | next _ ih => exact .next (ih h')

theorem split {vs : List Token} (h : Scans cs vs rest) :
    ∀ {ts us : List Token}, vs = ts ++ us → ∃ mid, Scans cs ts mid ∧ Scans mid us rest := by
  induction h with
  | done rest =>
    intro ts us hv
    obtain ⟨rfl, rfl⟩ : ts = [] ∧ us = [] := by simpa [eq_comm] using hv
    exact ⟨_, .done _, .done _⟩
  | next h ih =>
    intro ts us hv
    cases ts with
    | nil =>
      obtain rfl : _ = us := hv
      exact ⟨_, .done _, .next h⟩
    | cons t ts =>
      simp only [List.cons_append, List.cons.injEq] at hv
      obtain ⟨rfl, hv⟩ := hv
      obtain ⟨mid, hts, hus⟩ := ih hv
      exact ⟨mid, .next hts, hus⟩

end Scans

theorem exists_first {text : String} {t : Token} (h : t ∈ scan text) : ∃ c cs, t = first c cs :=
  (scans_scanChars text.toList).exists_first t h

theorem size_pos {t : Token} (h : t.text ≠ "") : 0 < t.size := by
  rw [size, Nat.pos_iff_ne_zero]
  simpa using h

theorem chars_scanChars (cs : List Char) : chars (scanChars cs) = cs := by
  simpa using (scans_scanChars cs).chars_eq.symm

theorem spelling_scan (text : String) : spelling (scan text) = text := by
  rw [spelling_eq, scan, chars_scanChars, String.ofList_toList]

end Token

end CrossReference.Source
