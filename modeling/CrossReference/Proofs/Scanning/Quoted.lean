import CrossReference.Source.Token.Scan

namespace CrossReference.Source.Token

def isStop (c : Char) : Bool := c == ';' || isBlank c

def EndsInStop (x : List Char) : Prop := ∀ c, x.getLast? = some c → isStop c

theorem EndsInStop.tail {a : Char} {x : List Char} (h : EndsInStop (a :: x)) : EndsInStop x := by
  intro c hc
  refine h c ?_
  rw [List.getLast?_cons, hc]
  rfl

theorem EndsInStop.drop {x : List Char} (h : EndsInStop x) (n : Nat) : EndsInStop (x.drop n) := by
  induction n generalizing x with
  | zero => exact h
  | succ n ih =>
    cases x with
    | nil => exact h
    | cons a x => exact ih h.tail

theorem not_isStop_of_isQuote {q : Char} (h : isQuote q) : isStop q = false := by
  rcases (by simpa [isQuote] using h : q = '\'' ∨ q = '"') with rfl | rfl <;> decide

section Runs

variable (p : Char → Bool)

theorem runLength_append (x y : List Char) :
    runLength p (x ++ y) = runLength p x ∨
    x.length < runLength p (x ++ y) ∧ runLength p x = x.length := by
  induction x with
  | nil =>
    rw [List.nil_append]
    rcases Nat.eq_zero_or_pos (runLength p y) with h | h
    · exact .inl h
    · exact .inr ⟨h, rfl⟩
  | cons a x ih =>
    rw [List.cons_append, runLength, runLength]
    by_cases ha : p a
    · rw [if_pos ha, if_pos ha, List.length_cons]
      omega
    · simp [ha]

theorem of_mem_take_runLength {c : Char} {x : List Char} {n : Nat} (hn : n ≤ runLength p x)
    (h : c ∈ x.take n) : p c := by
  induction x generalizing n with
  | nil => simp at h
  | cons a x ih =>
    cases n with
    | zero => simp at h
    | succ n =>
      rw [runLength] at hn
      split at hn
      · next ha =>
        rw [List.take_succ_cons] at h
        rcases List.mem_cons.1 h with rfl | h
        · exact ha
        · exact ih (Nat.le_of_succ_le_succ hn) h
      · simp at hn

end Runs

theorem blockLength_cons (a : Char) (cs : List Char) :
    blockLength (a :: cs) =
      if a = '*' ∧ cs.head? = some '/' then 1 else blockLength cs + 1 := by
  by_cases h : a = '*' ∧ cs.head? = some '/'
  · obtain ⟨rfl, hcs⟩ := h
    obtain ⟨rest, rfl⟩ := List.head?_eq_some_iff.1 hcs
    simp [blockLength]
  · rw [if_neg h, blockLength]
    rintro rest rfl rfl
    exact h ⟨rfl, rfl⟩

theorem blockLength_append (x y : List Char) :
    blockLength (x ++ y) = blockLength x ∨
    x.length < blockLength (x ++ y) ∧ blockLength x = x.length := by
  induction x with
  | nil =>
    rw [List.nil_append]
    rcases Nat.eq_zero_or_pos (blockLength y) with h | h
    · exact .inl h
    · exact .inr ⟨h, rfl⟩
  | cons a x ih =>
    rw [List.cons_append, blockLength_cons, blockLength_cons, List.length_cons]
    cases x with
    | nil =>
      by_cases h : a = '*' ∧ y.head? = some '/'
      · exact .inl (by simp [h, blockLength])
      · simp [h, blockLength]
        omega
    | cons b x =>
      by_cases h : a = '*' ∧ b = '/'
      · exact .inl (by simp [h])
      · simpa [h] using ih

/-- Reading on after `x`: either the same extent, or one that goes beyond `x`; then `x` was read to
its end, provided it ends in a stop. -/
def Extent.Extends (x : List Char) (old new : Extent) : Prop :=
  new = old ∨ x.length < new.length ∧ (EndsInStop x → old = ⟨false, x.length⟩)

theorem Extent.Extends.after {x z : List Char} {old new : Extent} {n : Nat}
    (h : Extends x old new) (hz : z.length = x.length + n) (hstop : EndsInStop z → EndsInStop x) :
    Extends z (old.after n) (new.after n) := by
  rcases h with rfl | ⟨hlt, hfull⟩
  · exact .inl rfl
  · refine .inr ⟨by simp [Extent.after]; omega, fun hend => ?_⟩
    rw [hfull (hstop hend), hz]
    rfl

theorem Extent.extends_nil {new : Extent} (h : new.length = 0 → new = ⟨false, 0⟩) :
    Extends [] ⟨false, 0⟩ new := by
  rcases Nat.eq_zero_or_pos new.length with h0 | hpos
  · exact .inl (h h0)
  · exact .inr ⟨hpos, fun _ => rfl⟩

theorem lineExtent_zero {q : Char} {y : List Char} (h : (lineExtent q y).length = 0) :
    lineExtent q y = ⟨false, 0⟩ := by
  revert h
  fun_cases lineExtent q y <;> simp_all [Extent.after]

theorem lineExtent_cons {q c : Char} (hn : c ≠ '\n') (hb : c ≠ '\\') (cs : List Char) :
    lineExtent q (c :: cs) = if c = q then ⟨true, 1⟩ else (lineExtent q cs).after 1 := by
  rw [lineExtent]
  · exact hn
  · exact fun h => absurd h hb
  · exact fun _ h => absurd h hb
  · exact fun _ _ h => absurd h hb

/-- The last cases of `lineExtent` are about no backslash: that is read in the cases before them. -/
theorem ne_backslash {c : Char} {cs : List Char} (hlone : c = '\\' → cs = [] → False)
    (hpair : ∀ d ds, c = '\\' → cs = d :: ds → False) : c ≠ '\\' := by
  intro hc
  cases cs with
  | nil => exact hlone hc rfl
  | cons d ds => exact hpair d ds hc rfl

theorem lineExtent_append {q : Char} (hq : isQuote q) (x y : List Char) :
    Extent.Extends x (lineExtent q x) (lineExtent q (x ++ y)) := by
  fun_induction lineExtent q x with
  | case1 => exact Extent.extends_nil lineExtent_zero
  | case2 | case4 => exact .inl (by simp [lineExtent])
  | case3 =>
    cases y with
    | nil => exact .inl rfl
    | cons d y =>
      by_cases hd : d = '\n'
      · exact .inl (by simp [hd, lineExtent])
      · refine .inr ⟨by simp [lineExtent, Extent.after], fun hend => ?_⟩
        exact absurd (hend '\\' rfl) (by decide)
  | case5 c cs hc ih =>
    have hstep : lineExtent q ('\\' :: c :: (cs ++ y)) = (lineExtent q (cs ++ y)).after 2 := by
      rw [lineExtent]
      exact hc
    rw [List.cons_append, List.cons_append, hstep]
    exact ih.after rfl fun h => h.tail.tail
  | case6 cs =>
    rcases (by simpa [isQuote] using hq : q = '\'' ∨ q = '"') with rfl | rfl <;>
      exact .inl (by simp [lineExtent])
  | case7 c cs hn hlone _ hpair hcq ih =>
    rw [List.cons_append, lineExtent_cons hn (ne_backslash hlone hpair), if_neg hcq]
    exact ih.after rfl EndsInStop.tail

theorem tripleExtent_zero {q : Char} {y : List Char} (h : (tripleExtent q y).length = 0) :
    tripleExtent q y = ⟨false, 0⟩ := by
  revert h
  fun_cases tripleExtent q y <;> simp_all [Extent.after]

section Triple

variable {q : Char}

theorem tripleExtent_other {a : Char} (ha : a ≠ q) (cs : List Char) :
    tripleExtent q (a :: cs) = (tripleExtent q cs).after 1 := by
  rw [tripleExtent.eq_def]
  simp [ha]

theorem tripleExtent_one {b : Char} (hb : b ≠ q) (cs : List Char) :
    tripleExtent q (q :: b :: cs) = (tripleExtent q cs).after 2 := by
  rw [tripleExtent.eq_def]
  simp [hb]

theorem tripleExtent_two {c : Char} (hc : c ≠ q) (cs : List Char) :
    tripleExtent q (q :: q :: c :: cs) = (tripleExtent q cs).after 3 := by
  rw [tripleExtent.eq_def]
  simp [hc]

theorem tripleExtent_close (cs : List Char) : tripleExtent q (q :: q :: q :: cs) = ⟨true, 3⟩ := by
  rw [tripleExtent.eq_def]
  simp

theorem tripleExtent_quotes (y : List Char) :
    tripleExtent q (q :: q :: y) = ⟨false, 0⟩ ∨ 2 < (tripleExtent q (q :: q :: y)).length := by
  cases y with
  | nil => exact .inl (by simp [tripleExtent])
  | cons c y =>
    by_cases hc : c = q
    · exact .inr (by simp [hc, tripleExtent_close])
    · exact .inr (by simp [tripleExtent_two hc, Extent.after])

theorem tripleExtent_quote (y : List Char) :
    tripleExtent q (q :: y) = ⟨false, 0⟩ ∨ 1 < (tripleExtent q (q :: y)).length := by
  cases y with
  | nil => exact .inl (by simp [tripleExtent])
  | cons b y =>
    by_cases hb : b = q
    · rw [hb]
      exact (tripleExtent_quotes y).imp_right Nat.lt_of_succ_lt
    · exact .inr (by simp [tripleExtent_one hb, Extent.after])

end Triple

theorem tripleExtent_append {q : Char} (hq : isQuote q) (x y : List Char) :
    Extent.Extends x (tripleExtent q x) (tripleExtent q (x ++ y)) := by
  have hstop := not_isStop_of_isQuote hq
  fun_induction tripleExtent q x with
  | case1 => exact Extent.extends_nil tripleExtent_zero
  | case2 a as ha ih =>
    rw [List.cons_append, tripleExtent_other ha]
    exact ih.after rfl EndsInStop.tail
  | case3 a ha =>
    obtain rfl : a = q := Classical.not_not.1 ha
    rcases tripleExtent_quote y with h | h
    · exact .inl h
    · exact .inr ⟨h, fun hend => absurd (hend a rfl) (by simp [hstop])⟩
  | case4 a ha b bs hb ih =>
    obtain rfl : a = q := Classical.not_not.1 ha
    rw [List.cons_append, List.cons_append, tripleExtent_one hb]
    exact ih.after rfl fun h => h.tail.tail
  | case5 a ha b hb =>
    obtain rfl : a = q := Classical.not_not.1 ha
    obtain rfl : b = a := Classical.not_not.1 hb
    rcases tripleExtent_quotes y with h | h
    · exact .inl h
    · exact .inr ⟨h, fun hend => absurd (hend b rfl) (by simp [hstop])⟩
  | case6 a ha b hb cs =>
    obtain rfl : a = q := Classical.not_not.1 ha
    obtain rfl : b = a := Classical.not_not.1 hb
    exact .inl (tripleExtent_close _)
  | case7 a ha b hb c cs hc ih =>
    obtain rfl : a = q := Classical.not_not.1 ha
    obtain rfl : b = a := Classical.not_not.1 hb
    rw [List.cons_append, List.cons_append, List.cons_append, tripleExtent_two hc]
    exact ih.after rfl fun h => h.tail.tail.tail

theorem stringExtent_append {q : Char} (hq : isQuote q) (x y : List Char) :
    Extent.Extends x (stringExtent q x) (stringExtent q (x ++ y)) := by
  have hstop := not_isStop_of_isQuote hq
  match x with
  | [] =>
    refine Extent.extends_nil fun h => ?_
    rw [List.nil_append] at h ⊢
    cases ho : opensTriple q y with
    | true => simp [stringExtent, ho, Extent.after] at h
    | false =>
      rw [stringExtent, ho] at h ⊢
      exact lineExtent_zero h
  | [a] =>
    have hx : stringExtent q [a] = lineExtent q [a] := rfl
    rw [hx, stringExtent]
    split
    · next ho =>
      refine .inr ⟨by simp [Extent.after], fun hend => ?_⟩
      cases y with
      | nil => simp [opensTriple] at ho
      | cons b y =>
        have ha : a = q := by simpa using (Bool.and_eq_true_iff.1 ho).1
        exact absurd (hend a rfl) (by simp [ha, hstop])
    · exact lineExtent_append hq [a] y
  | a :: b :: x =>
    have ho : opensTriple q (a :: b :: x ++ y) = opensTriple q (a :: b :: x) := rfl
    rw [stringExtent, stringExtent, ho]
    split
    · exact (tripleExtent_append hq x y).after rfl fun h => h.tail.tail
    · exact lineExtent_append hq _ y

end CrossReference.Source.Token
