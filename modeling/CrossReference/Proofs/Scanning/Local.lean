import CrossReference.Proofs.Scanning.Compact

/-!
How far a token looks. What is put behind a text changes its tokens only where one of them reaches
across the seam, and a token that reaches across a semicolon or a blank had taken all before it.
-/

namespace CrossReference.Source.Token

/-- What a token reaches when more text follows: the same, or something beyond `x`; then `x` was
taken to its end, provided it ends in a stop. -/
def Extends (x : List Char) (old new : TokenKind × Nat) : Prop :=
  new = old ∨ x.length < new.2 ∧ (EndsInStop x → old.2 = x.length)

theorem extends_of_stopFree {f : List Char → TokenKind × Nat} {x y : List Char}
    (happend : f (x ++ y) = f x ∨ x.length < (f (x ++ y)).2)
    (hfree : StopFree (x ++ y) (f (x ++ y)).2) (hnil : (f []).2 = 0) :
    Extends x (f x) (f (x ++ y)) := by
  rcases happend with h | h
  · exact .inl h
  · refine .inr ⟨h, fun hend => ?_⟩
    obtain rfl := hfree.eq_nil h hend
    exact hnil

theorem rawReach_append {q : Char} (hq : isQuote q) (x y : List Char) :
    Extends (q :: x) (rawReach q x) (rawReach q (x ++ y)) := by
  rcases stringExtent_append hq x y with h | ⟨hlt, hfull⟩
  · exact .inl (by rw [rawReach, h]; rfl)
  · have hne :
        ¬ ((!(stringExtent q (x ++ y)).closed && (stringExtent q (x ++ y)).length = 0) = true) := by
      simp
      omega
    refine .inr ⟨?_, fun hend => ?_⟩
    · simp only [rawReach, hne, List.length_cons]
      simpa using hlt
    · cases x with
      | nil => exact absurd (hend q rfl) (by simp [not_isStop_of_isQuote hq])
      | cons a x =>
        rw [rawReach, hfull hend.tail]
        simp

section Reach

variable {c : Char} {cs : List Char}

theorem reach_blank (h : isBlank c) (cs : List Char) :
    reach c cs = (.whitespace, runLength isBlank cs) := if_pos h

theorem reach_quote (h : isQuote c) (cs : List Char) :
    reach c cs = ((stringExtent c cs).kind, (stringExtent c cs).length) := by
  have hb : isBlank c = false := by
    rcases (by simpa [isQuote] using h : c = '\'' ∨ c = '"') with rfl | rfl <;> rfl
  exact (if_neg (ne_true_of_eq_false hb)).trans (if_pos h)

theorem reach_number (hb : isBlank c = false) (hq : isQuote c = false) (hd : c.isDigit = true)
    (cs : List Char) : reach c cs = numberReach c cs :=
  (if_neg (ne_true_of_eq_false hb)).trans <| (if_neg (ne_true_of_eq_false hq)).trans (if_pos hd)

theorem reach_letter (hb : isBlank c = false) (hq : isQuote c = false) (hd : c.isDigit = false)
    (hw : isWordStart c = true) (q : Char) (rest : List Char) :
    reach c (q :: rest) =
      if c == 'r' && isQuote q then rawReach q rest else wordReach c (q :: rest) :=
  (if_neg (ne_true_of_eq_false hb)).trans <| (if_neg (ne_true_of_eq_false hq)).trans <|
    (if_neg (ne_true_of_eq_false hd)).trans (if_pos hw)

theorem reach_raw {q : Char} (h : isQuote q) (cs : List Char) :
    reach 'r' (q :: cs) = rawReach q cs :=
  (reach_letter rfl rfl rfl rfl q cs).trans (if_pos (by rw [h]; rfl))

theorem reach_comment (cs : List Char) :
    reach '/' ('/' :: cs) = (.comment, runLength (· != '\n') cs + 1) := rfl

theorem reach_block (cs : List Char) :
    reach '/' ('*' :: cs) = (.errorToken, blockLength cs + 1) := rfl

theorem reach_word (hb : isBlank c = false) (hq : isQuote c = false) (hd : c.isDigit = false)
    (hw : isWordStart c = true) (hraw : ∀ q rest, c = 'r' → cs = q :: rest → isQuote q = false) :
    reach c cs = wordReach c cs := by
  cases cs with
  | nil =>
    exact (if_neg (ne_true_of_eq_false hb)).trans <| (if_neg (ne_true_of_eq_false hq)).trans <|
      (if_neg (ne_true_of_eq_false hd)).trans (if_pos hw)
  | cons q rest =>
    rw [reach_letter hb hq hd hw, if_neg]
    intro h
    obtain ⟨hc, hquote⟩ := Bool.and_eq_true_iff.1 h
    simp [hraw q rest (by simpa using hc) rfl] at hquote

theorem reach_mark (hb : isBlank c = false) (hq : isQuote c = false) (hd : c.isDigit = false)
    (hw : isWordStart c = false)
    (hslash : ∀ a rest, c = '/' → cs = a :: rest → a ≠ '/' ∧ a ≠ '*') :
    reach c cs = markReach (c :: cs) := by
  simp only [reach.eq_def, hb, hq, hd, hw, Bool.false_eq_true, if_false]
  split
  · next rest => exact absurd rfl (hslash '/' rest rfl rfl).1
  · next rest => exact absurd rfl (hslash '*' rest rfl rfl).2
  · rfl

inductive Reached (c : Char) : List Char → TokenKind × Nat → Prop
  | blank (h : isBlank c) (cs : List Char) : Reached c cs (.whitespace, runLength isBlank cs)
  | quote (h : isQuote c) (cs : List Char) :
      Reached c cs ((stringExtent c cs).kind, (stringExtent c cs).length)
  | number (h : c.isDigit) (cs : List Char) : Reached c cs (numberReach c cs)
  | raw {q : Char} (hc : c = 'r') (h : isQuote q) (cs : List Char) :
      Reached c (q :: cs) (rawReach q cs)
  | word (h : isWordStart c) {cs : List Char}
      (hraw : ∀ q rest, c = 'r' → cs = q :: rest → isQuote q = false) :
      Reached c cs (wordReach c cs)
  | comment (hc : c = '/') (cs : List Char) :
      Reached c ('/' :: cs) (.comment, runLength (· != '\n') cs + 1)
  | block (hc : c = '/') (cs : List Char) :
      Reached c ('*' :: cs) (.errorToken, blockLength cs + 1)
  | mark {cs : List Char} (hb : isBlank c = false) (hq : isQuote c = false)
      (hd : c.isDigit = false) (hw : isWordStart c = false)
      (hslash : ∀ a rest, c = '/' → cs = a :: rest → a ≠ '/' ∧ a ≠ '*') :
      Reached c cs (markReach (c :: cs))

theorem reached (c : Char) (cs : List Char) : Reached c cs (reach c cs) := by
  cases hb : isBlank c with
  | true => exact reach_blank hb cs ▸ .blank hb cs
  | false =>
  cases hq : isQuote c with
  | true => exact reach_quote hq cs ▸ .quote hq cs
  | false =>
  cases hd : c.isDigit with
  | true => exact reach_number hb hq hd cs ▸ .number hd cs
  | false =>
  cases hw : isWordStart c with
  | true =>
    by_cases hraw : ∀ q rest, c = 'r' → cs = q :: rest → isQuote q = false
    · exact reach_word hb hq hd hw hraw ▸ .word hw hraw
    · obtain ⟨q, rest, rfl, rfl, h⟩ : ∃ q rest, c = 'r' ∧ cs = q :: rest ∧ isQuote q = true := by
        simpa using hraw
      exact reach_raw h rest ▸ .raw rfl h rest
  | false =>
    by_cases hslash : ∀ a rest, c = '/' → cs = a :: rest → a ≠ '/' ∧ a ≠ '*'
    · exact reach_mark hb hq hd hw hslash ▸ .mark hb hq hd hw hslash
    · obtain ⟨a, rest, rfl, rfl, h⟩ :
          ∃ a rest, c = '/' ∧ cs = a :: rest ∧ ¬ (a ≠ '/' ∧ a ≠ '*') := by
        simpa only [Classical.not_forall, exists_prop] using hslash
      rcases (Decidable.not_and_iff_or_not.1 h).imp Decidable.not_not.1 Decidable.not_not.1 with
        rfl | rfl
      · exact reach_comment rest ▸ .comment rfl rest
      · exact reach_block rest ▸ .block rfl rest

end Reach

theorem extends_mark (c : Char) (x y : List Char) :
    Extends x (markReach (c :: x)) (markReach (c :: (x ++ y))) := by
  refine extends_of_stopFree (f := fun cs => markReach (c :: cs)) (markReach_append c x y)
    (stopFree_mark c _) ?_
  rw [markReach]
  split
  · next m h =>
    have hm : m.1.isPrefixOf [c] = true := by simpa using List.find?_some h
    have := (List.isPrefixOf_iff_prefix.1 hm).length_le
    simp at this ⊢
    omega
  · rfl

theorem extends_word (c : Char) (x y : List Char) :
    Extends x (wordReach c x) (wordReach c (x ++ y)) :=
  extends_of_stopFree (f := wordReach c) (wordReach_append c x y) (stopFree_word c _) rfl

theorem extends_slash (x y : List Char) : Extends x (reach '/' x) (reach '/' (x ++ y)) := by
  have hmark {cs : List Char} (h : ∀ a rest, cs = a :: rest → a ≠ '/' ∧ a ≠ '*') :
      reach '/' cs = markReach ('/' :: cs) :=
    reach_mark rfl rfl rfl rfl fun a rest _ => h a rest
  cases x with
  | nil =>
    rw [List.nil_append]
    cases y with
    | nil => exact .inl rfl
    | cons a y =>
      by_cases hcomment : a = '/'
      · rw [hcomment, reach_comment]
        exact .inr ⟨Nat.succ_pos _, fun _ => rfl⟩
      · by_cases hblock : a = '*'
        · rw [hblock, reach_block]
          exact .inr ⟨Nat.succ_pos _, fun _ => rfl⟩
        · rw [hmark (by simp), hmark (by simp; exact ⟨hcomment, hblock⟩)]
          exact extends_mark '/' [] (a :: y)
  | cons a x =>
    rw [List.cons_append]
    by_cases hcomment : a = '/'
    · rw [hcomment, reach_comment, reach_comment]
      rcases runLength_append (· != '\n') x y with h | ⟨h, hfull⟩
      · exact .inl (by rw [h])
      · exact .inr ⟨Nat.succ_lt_succ h, fun _ => congrArg (· + 1) hfull⟩
    · by_cases hblock : a = '*'
      · rw [hblock, reach_block, reach_block]
        rcases blockLength_append x y with h | ⟨h, hfull⟩
        · exact .inl (by rw [h])
        · exact .inr ⟨Nat.succ_lt_succ h, fun _ => congrArg (· + 1) hfull⟩
      · rw [hmark (by simp; exact ⟨hcomment, hblock⟩), hmark (by simp; exact ⟨hcomment, hblock⟩)]
        exact extends_mark '/' (a :: x) y

theorem extends_letter {c : Char} (hb : isBlank c = false) (hq : isQuote c = false)
    (hd : c.isDigit = false) (hw : isWordStart c = true) (x y : List Char) :
    Extends x (reach c x) (reach c (x ++ y)) := by
  have hword {q : Char} (h : ¬ (c = 'r' ∧ isQuote q = true)) (cs : List Char) :
      reach c (q :: cs) = wordReach c (q :: cs) := by
    refine reach_word hb hq hd hw fun q' rest hc hcs => ?_
    obtain ⟨rfl, _⟩ := List.cons.inj hcs
    simpa [hc] using h
  cases x with
  | nil =>
    have hx : reach c [] = wordReach c [] := reach_word hb hq hd hw (by simp)
    rw [List.nil_append, hx]
    cases y with
    | nil => exact .inl hx
    | cons q y =>
      by_cases h : c = 'r' ∧ isQuote q = true
      · obtain ⟨rfl, h⟩ := h
        rw [reach_raw h, rawReach]
        split
        · exact .inl rfl
        · exact .inr ⟨Nat.succ_pos _, fun _ => rfl⟩
      · rw [hword h]
        exact extends_word c [] (q :: y)
  | cons q x =>
    rw [List.cons_append]
    by_cases h : c = 'r' ∧ isQuote q = true
    · obtain ⟨rfl, h⟩ := h
      rw [reach_raw h, reach_raw h]
      exact rawReach_append h x y
    · rw [hword h, hword h]
      exact extends_word c (q :: x) y

theorem reach_append (c : Char) (x y : List Char) :
    Extends x (reach c x) (reach c (x ++ y)) := by
  cases hb : isBlank c with
  | true =>
    rw [reach_blank hb, reach_blank hb]
    rcases runLength_append isBlank x y with h | ⟨h, hfull⟩
    · exact .inl (by rw [h])
    · exact .inr ⟨h, fun _ => hfull⟩
  | false =>
  cases hq : isQuote c with
  | true =>
    rw [reach_quote hq, reach_quote hq]
    rcases stringExtent_append hq x y with h | ⟨h, hfull⟩
    · exact .inl (by rw [h])
    · exact .inr ⟨h, fun hend => by rw [hfull hend]⟩
  | false =>
  cases hd : c.isDigit with
  | true =>
    rw [reach_number hb hq hd, reach_number hb hq hd]
    refine extends_of_stopFree (numberReach_append c x y) (stopFree_number c _) ?_
    simp [numberReach, runLength, exponentLength]
  | false =>
  cases hw : isWordStart c with
  | true => exact extends_letter hb hq hd hw x y
  | false =>
    by_cases hc : c = '/'
    · exact hc ▸ extends_slash x y
    · have hmark (cs : List Char) : reach c cs = markReach (c :: cs) :=
        reach_mark hb hq hd hw fun _ _ h => absurd h hc
      rw [hmark, hmark]
      exact extends_mark c x y

end CrossReference.Source.Token
