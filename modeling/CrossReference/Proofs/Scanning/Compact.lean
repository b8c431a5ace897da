import CrossReference.Proofs.Scanning.Quoted

namespace CrossReference.Source.Token

def StopFree (cs : List Char) (n : Nat) : Prop := ∀ c ∈ cs.take n, isStop c = false

namespace StopFree

variable {cs : List Char} {n m : Nat}

theorem zero (cs : List Char) : StopFree cs 0 := by simp [StopFree]

theorem cons {c : Char} (hc : isStop c = false) (h : StopFree cs n) :
    StopFree (c :: cs) (n + 1) := by
  intro d hd
  rcases List.mem_cons.1 (by simpa using hd) with rfl | hd
  · exact hc
  · exact h d hd

theorem add (h : StopFree cs n) (h' : StopFree (cs.drop n) m) : StopFree cs (n + m) := by
  intro c hc
  rw [List.take_add] at hc
  rcases List.mem_append.1 hc with hc | hc
  · exact h c hc
  · exact h' c hc

theorem runLength {p : Char → Bool} (hp : ∀ c, p c = true → isStop c = false) (cs : List Char) :
    StopFree cs (runLength p cs) :=
  fun c hc => hp c (of_mem_take_runLength p (Nat.le_refl _) hc)

theorem eq_nil {x y : List Char} (h : StopFree (x ++ y) n) (hlt : x.length < n)
    (hend : EndsInStop x) : x = [] := by
  cases hl : x.getLast? with
  | none => exact List.getLast?_eq_none_iff.1 hl
  | some c =>
    have hmem : c ∈ (x ++ y).take n := by
      rw [List.take_append, List.take_of_length_le (Nat.le_of_lt hlt)]
      exact List.mem_append_left _ (List.mem_of_getLast? hl)
    have := h c hmem
    simp [hend c hl] at this

end StopFree

theorem not_isStop {p : Char → Bool}
    (hp : [';', ' ', '\t', '\r', '\n', '\x0c'].all (fun c => !p c) = true) (c : Char)
    (h : p c = true) : isStop c = false := by
  by_cases hs : isStop c = true
  · have hall := List.all_eq_true.1 hp c
      (by simpa [isStop, isBlank, or_assoc] using hs)
    simp [h] at hall
  · simpa using hs

theorem stopFree_digits (cs : List Char) : StopFree cs (runLength Char.isDigit cs) :=
  .runLength (not_isStop (by decide)) cs

def hexLength (first : Char) : List Char → Nat
  | x :: hs => if first == '0' && (x == 'x' || x == 'X') then runLength isHexDigit hs else 0
  | [] => 0

def fractionLength : List Char → Nat
  | '.' :: ds => runLength Char.isDigit ds
  | _ => 0

def tailReach (rest : List Char) : TokenKind × Nat :=
  if fractionLength rest ≠ 0 then
    (.floatNumber, 1 + fractionLength rest + exponentLength (rest.drop (1 + fractionLength rest)))
  else if exponentLength rest ≠ 0 then (.floatNumber, exponentLength rest)
  else (.intNumber, 0)

theorem numberReach_eq (first : Char) (cs : List Char) :
    numberReach first cs =
      if hexLength first cs ≠ 0 then (.intNumber, hexLength first cs + 1)
      else
        ((tailReach (cs.drop (runLength Char.isDigit cs))).1,
          runLength Char.isDigit cs + (tailReach (cs.drop (runLength Char.isDigit cs))).2) := by
  have hunfold : numberReach first cs =
      if hexLength first cs ≠ 0 then (.intNumber, hexLength first cs + 1)
      else
        let whole := runLength Char.isDigit cs
        let rest := cs.drop whole
        if fractionLength rest ≠ 0 then
          (.floatNumber, whole + 1 + fractionLength rest +
            exponentLength (rest.drop (1 + fractionLength rest)))
        else if exponentLength rest ≠ 0 then (.floatNumber, whole + exponentLength rest)
        else (.intNumber, whole) := by
    cases cs <;> rfl
  rw [hunfold]
  simp only [tailReach]
  split
  · rfl
  · split
    · simp [Nat.add_assoc]
    · split <;> simp

theorem hexLength_append (first : Char) (x y : List Char) :
    hexLength first (x ++ y) = hexLength first x ∨ x.length < hexLength first (x ++ y) + 1 ∧
      hexLength first (x ++ y) ≠ 0 := by
  cases x with
  | nil =>
    rw [List.nil_append]
    by_cases h : hexLength first y = 0
    · exact .inl h
    · exact .inr ⟨Nat.succ_pos _, h⟩
  | cons a x =>
    rw [List.cons_append, hexLength, hexLength]
    split
    · rcases runLength_append isHexDigit x y with h | ⟨h, _⟩
      · exact .inl h
      · exact .inr ⟨by simpa using h, by omega⟩
    · exact .inl rfl

theorem fractionLength_append (x y : List Char) :
    fractionLength (x ++ y) = fractionLength x ∨
    x.length < 1 + fractionLength (x ++ y) ∧ fractionLength (x ++ y) ≠ 0 := by
  cases x with
  | nil =>
    rw [List.nil_append]
    by_cases h : fractionLength y = 0
    · exact .inl h
    · exact .inr ⟨by rw [List.length_nil]; omega, h⟩
  | cons a x =>
    by_cases ha : a = '.'
    · subst ha
      rcases runLength_append Char.isDigit x y with h | ⟨h, _⟩
      · exact .inl h
      · refine .inr ⟨?_, ?_⟩ <;> simp only [List.cons_append, fractionLength, List.length_cons] <;>
          omega
    · exact .inl (by simp [fractionLength, ha])

theorem exponentLength_append (x y : List Char) :
    exponentLength (x ++ y) = exponentLength x ∨ x.length < exponentLength (x ++ y) := by
  match x with
  | [] =>
    rw [List.nil_append]
    exact (Nat.eq_zero_or_pos _).imp_right id
  | [e] =>
    rw [List.cons_append, List.nil_append]
    cases y with
    | nil => exact .inl rfl
    | cons s ds =>
      simp only [exponentLength, List.length_singleton]
      split
      · split <;> split <;> simp
        omega
      · simp
  | e :: s :: ds =>
    have hsign := runLength_append Char.isDigit ds y
    have hplain := runLength_append Char.isDigit (s :: ds) y
    simp only [List.cons_append, exponentLength, List.length_cons] at hplain ⊢
    split
    · split
      · split <;> split <;> omega
      · split <;> split <;> omega
    · exact .inl rfl

theorem stopFree_hex (first : Char) (cs : List Char) (h : hexLength first cs ≠ 0) :
    StopFree cs (hexLength first cs + 1) := by
  cases cs with
  | nil => simp [hexLength] at h
  | cons x hs =>
    rw [hexLength] at h ⊢
    split at h
    · next hx =>
      rw [if_pos hx]
      have hx : x = 'x' ∨ x = 'X' := by simpa using (Bool.and_eq_true_iff.1 hx).2
      refine .cons ?_ (.runLength (not_isStop (by decide)) hs)
      rcases hx with rfl | rfl <;> decide
    · simp at h

theorem stopFree_fraction (cs : List Char) (h : fractionLength cs ≠ 0) :
    StopFree cs (1 + fractionLength cs) := by
  cases cs with
  | nil => simp [fractionLength] at h
  | cons a cs =>
    by_cases ha : a = '.'
    · subst ha
      rw [Nat.add_comm]
      exact .cons (by decide) (stopFree_digits cs)
    · simp [fractionLength, ha] at h

theorem stopFree_exponent (cs : List Char) : StopFree cs (exponentLength cs) := by
  match cs with
  | [] => exact .zero _
  | [e] =>
    have he : exponentLength [e] = 0 := by simp [exponentLength]
    exact he ▸ .zero _
  | e :: s :: ds =>
    rw [exponentLength]
    split
    · next he =>
      have he : isStop e = false := by
        rcases (by simpa using he : e = 'e' ∨ e = 'E') with rfl | rfl <;> decide
      split
      · next hs =>
        have hs : isStop s = false := by
          rcases (by simpa using hs : s = '+' ∨ s = '-') with rfl | rfl <;> decide
        split
        · exact .zero _
        · exact .cons he (.cons hs (stopFree_digits ds))
      · split
        · exact .zero _
        · exact .cons he (stopFree_digits (s :: ds))
    · exact .zero _

theorem tailReach_append (x y : List Char) :
    tailReach (x ++ y) = tailReach x ∨ x.length < (tailReach (x ++ y)).2 := by
  rw [tailReach, tailReach]
  rcases fractionLength_append x y with hfrac | ⟨hlt, hne⟩
  · rw [hfrac]
    split
    · rcases Nat.lt_or_ge x.length (1 + fractionLength x) with hlt | hle
      · exact .inr (Nat.lt_of_lt_of_le hlt (Nat.le_add_right _ _))
      · rw [List.drop_append_of_le_length hle]
        rcases exponentLength_append (x.drop (1 + fractionLength x)) y with h | h
        · exact .inl (by rw [h])
        · rw [List.length_drop] at h
          exact .inr (by simp only; omega)
    · rcases exponentLength_append x y with h | h
      · exact .inl (by rw [h])
      · have hne : exponentLength (x ++ y) ≠ 0 := by omega
        rw [if_pos hne]
        exact .inr h
  · rw [if_pos hne]
    exact .inr (Nat.lt_of_lt_of_le hlt (Nat.le_add_right _ _))

theorem numberReach_append (first : Char) (x y : List Char) :
    numberReach first (x ++ y) = numberReach first x ∨
    x.length < (numberReach first (x ++ y)).2 := by
  rw [numberReach_eq, numberReach_eq]
  rcases hexLength_append first x y with hhex | ⟨hlt, hne⟩
  · rw [hhex]
    split
    · exact .inl rfl
    · rcases runLength_append Char.isDigit x y with h | ⟨h, _⟩
      · rw [h, List.drop_append_of_le_length (runLength_le _ _)]
        rcases tailReach_append (x.drop (runLength Char.isDigit x)) y with ht | ht
        · exact .inl (by rw [ht])
        · rw [List.length_drop] at ht
          exact .inr (by simp only; omega)
      · exact .inr (Nat.lt_of_lt_of_le h (Nat.le_add_right _ _))
  · exact .inr (by simpa [hne] using hlt)

theorem stopFree_tail (cs : List Char) : StopFree cs (tailReach cs).2 := by
  rw [tailReach]
  split
  · next h => exact (stopFree_fraction cs h).add (stopFree_exponent _)
  · split
    · exact stopFree_exponent cs
    · exact .zero _

theorem stopFree_number (first : Char) (cs : List Char) :
    StopFree cs (numberReach first cs).2 := by
  rw [numberReach_eq]
  split
  · next h => exact stopFree_hex first cs h
  · exact (stopFree_digits cs).add (stopFree_tail _)

theorem isPrefixOf_append_iff {m x : List Char} (y : List Char) (h : m.length ≤ x.length) :
    m.isPrefixOf (x ++ y) = m.isPrefixOf x := by
  induction m generalizing x with
  | nil => simp
  | cons a m ih =>
    cases x with
    | nil => simp at h
    | cons b x => simp [List.isPrefixOf, ih (by simpa using h)]

theorem isPrefixOf_append {m x : List Char} (y : List Char) (h : m.isPrefixOf x = true) :
    m.isPrefixOf (x ++ y) = true := by
  have hp := List.isPrefixOf_iff_prefix.1 h
  exact List.isPrefixOf_iff_prefix.2 (hp.trans (List.prefix_append x y))

theorem find?_mark_append (ms : List (List Char × TokenKind)) (x y : List Char) :
    ms.find? (fun m => m.1.isPrefixOf (x ++ y)) = ms.find? (fun m => m.1.isPrefixOf x) ∨
    ∃ m, ms.find? (fun m => m.1.isPrefixOf (x ++ y)) = some m ∧ x.length < m.1.length := by
  induction ms with
  | nil => exact .inl rfl
  | cons m ms ih =>
    rw [List.find?_cons, List.find?_cons]
    rcases Nat.lt_or_ge x.length m.1.length with hlt | hle
    · cases hm : m.1.isPrefixOf (x ++ y) with
      | true => exact .inr ⟨m, rfl, hlt⟩
      | false =>
        have hx : m.1.isPrefixOf x = false := by
          cases hx : m.1.isPrefixOf x with
          | false => rfl
          | true => rw [isPrefixOf_append y hx] at hm; cases hm
        rw [hx]
        exact ih
    · rw [isPrefixOf_append_iff y hle]
      cases m.1.isPrefixOf x with
      | true => exact .inl rfl
      | false => exact ih

theorem markReach_append (c : Char) (x y : List Char) :
    markReach (c :: x ++ y) = markReach (c :: x) ∨
    x.length < (markReach (c :: x ++ y)).2 := by
  rw [markReach, markReach]
  rcases find?_mark_append marks (c :: x) y with h | ⟨m, h, hlt⟩
  · exact .inl (by rw [h])
  · rw [h]
    rw [List.length_cons] at hlt
    exact .inr (by simp only; omega)

theorem stopFree_mark (c : Char) (cs : List Char) : StopFree cs (markReach (c :: cs)).2 := by
  rw [markReach]
  split
  · next m h =>
    have htails : (marks.all fun m => m.1.tail.all (!isStop ·)) = true := by decide
    simp only [List.all_eq_true, Bool.not_eq_true'] at htails
    have hm : m.1.isPrefixOf (c :: cs) = true := by simpa using List.find?_some h
    obtain ⟨rest, hrest⟩ := List.isPrefixOf_iff_prefix.1 hm
    intro d hd
    refine htails m (List.mem_of_find?_eq_some h) d ?_
    cases hchars : m.1 with
    | nil => simp [hchars] at hd
    | cons a tail =>
      rw [hchars] at hrest hd
      obtain ⟨rfl, rfl⟩ := List.cons.inj hrest
      simpa using hd
  · exact .zero _

theorem wordReach_append (first : Char) (x y : List Char) :
    wordReach first (x ++ y) = wordReach first x ∨
    x.length < (wordReach first (x ++ y)).2 := by
  rcases runLength_append isWordChar x y with h | ⟨h, _⟩
  · refine .inl ?_
    simp only [wordReach, h, List.take_append_of_le_length (runLength_le isWordChar x)]
  · exact .inr h

theorem stopFree_word (first : Char) (cs : List Char) : StopFree cs (wordReach first cs).2 :=
  .runLength (not_isStop (by decide)) cs

end CrossReference.Source.Token
