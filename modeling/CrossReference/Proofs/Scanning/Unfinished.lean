import CrossReference.Proofs.Scanning.Seam

namespace CrossReference.Source.Token

theorem quote_ne_newline {q : Char} (hq : isQuote q) : q ≠ '\n' := by
  rintro rfl
  exact absurd hq (by decide)

theorem lineExtent_newline (q : Char) (x : List Char) :
    (lineExtent q (x ++ ['\n'])).length ≤ x.length := by
  fun_induction lineExtent q x with
  | case1 | case2 | case3 | case4 => simp [lineExtent]
  | case5 c cs hc ih =>
    rw [List.cons_append, List.cons_append, lineExtent]
    · simpa [Extent.after] using ih
    · exact hc
  | case6 cs hn hlone _ hpair =>
    rw [List.cons_append, lineExtent_cons hn (ne_backslash hlone hpair), if_pos rfl]
    simp
  | case7 c cs hn hlone _ hpair hcq ih =>
    rw [List.cons_append, lineExtent_cons hn (ne_backslash hlone hpair), if_neg hcq]
    simpa [Extent.after] using ih

/-- A newline behind `x` stays outside, or the string was open, with at most quotes left over. -/
def Extent.MeetsNewline (x : List Char) (old new : Extent) : Prop :=
  new.length ≤ x.length ∨
  new = ⟨false, x.length + 1⟩ ∧ old.closed = false ∧ ∀ c ∈ x.drop old.length, isQuote c

theorem Extent.MeetsNewline.after {x z : List Char} {old new : Extent} {n : Nat}
    (h : MeetsNewline x old new) (hz : z.length = x.length + n) (hdrop : z.drop n = x) :
    MeetsNewline z (old.after n) (new.after n) := by
  rcases h with h | ⟨rfl, hopen, hleft⟩
  · exact .inl (by simp only [Extent.after]; omega)
  · refine .inr ⟨?_, hopen, ?_⟩
    · simp only [Extent.after, Extent.mk.injEq, true_and]
      omega
    · have hdrop' : z.drop (old.after n).length = x.drop old.length := by
        rw [← hdrop, List.drop_drop, Nat.add_comm]
        rfl
      rwa [hdrop']

theorem tripleExtent_newline {q : Char} (hq : isQuote q) (x : List Char) :
    Extent.MeetsNewline x (tripleExtent q x) (tripleExtent q (x ++ ['\n'])) := by
  have hnl : '\n' ≠ q := (quote_ne_newline hq).symm
  fun_induction tripleExtent q x with
  | case1 => exact .inr ⟨tripleExtent_other hnl [], rfl, by simp⟩
  | case2 a as ha ih =>
    rw [List.cons_append, tripleExtent_other ha]
    exact ih.after rfl rfl
  | case3 a ha =>
    obtain rfl : a = q := Classical.not_not.1 ha
    exact .inr ⟨tripleExtent_one hnl [], rfl, by simpa using hq⟩
  | case4 a ha b bs hb ih =>
    obtain rfl : a = q := Classical.not_not.1 ha
    rw [List.cons_append, List.cons_append, tripleExtent_one hb]
    exact ih.after rfl rfl
  | case5 a ha b hb =>
    obtain rfl : a = q := Classical.not_not.1 ha
    obtain rfl : b = a := Classical.not_not.1 hb
    exact .inr ⟨tripleExtent_two hnl [], rfl, by simpa using hq⟩
  | case6 a ha b hb cs =>
    obtain rfl : a = q := Classical.not_not.1 ha
    obtain rfl : b = a := Classical.not_not.1 hb
    refine .inl ?_
    rw [List.cons_append, List.cons_append, List.cons_append, tripleExtent_close]
    simp
  | case7 a ha b hb c cs hc ih =>
    obtain rfl : a = q := Classical.not_not.1 ha
    obtain rfl : b = a := Classical.not_not.1 hb
    rw [List.cons_append, List.cons_append, List.cons_append, tripleExtent_two hc]
    exact ih.after rfl rfl

theorem blockLength_le (cs : List Char) : blockLength cs ≤ cs.length := by
  induction cs with
  | nil => simp [blockLength]
  | cons a cs ih =>
    rw [blockLength_cons, List.length_cons]
    split
    · omega
    · omega

theorem stringExtent_newline {q : Char} (hq : isQuote q) {x : List Char}
    (h : x.length < (stringExtent q (x ++ ['\n'])).length) :
    ∃ cs, x = q :: q :: cs ∧ tripleExtent q (cs ++ ['\n']) = ⟨false, cs.length + 1⟩ ∧
      (tripleExtent q cs).closed = false ∧
      ∀ c ∈ cs.drop (tripleExtent q cs).length, isQuote c := by
  have hnl := quote_ne_newline hq
  cases ho : opensTriple q (x ++ ['\n']) with
  | false =>
    have hle := lineExtent_newline q x
    simp only [stringExtent, ho] at h
    simp at h
    omega
  | true =>
    cases x with
    | nil => simp [opensTriple] at ho
    | cons a x =>
      cases x with
      | nil => simp [opensTriple, hnl.symm] at ho
      | cons b cs =>
        obtain ⟨rfl, rfl⟩ : a = q ∧ b = q := by simpa [opensTriple] using ho
        simp only [stringExtent, ho, if_true] at h
        rcases tripleExtent_newline hq cs with hle | hopen
        · simp [Extent.after] at h
          omega
        · exact ⟨cs, rfl, hopen⟩

inductive Unfinished : Char → List Char → Prop
  | string {q : Char} {cs : List Char} : isQuote q → tripleExtent q cs = ⟨false, cs.length⟩ →
      Unfinished q (q :: q :: cs)
  | raw {q : Char} {cs : List Char} : isQuote q → tripleExtent q cs = ⟨false, cs.length⟩ →
      Unfinished 'r' (q :: q :: q :: cs)
  | block {cs : List Char} : blockLength cs = cs.length → cs.getLast? ≠ some '*' →
      Unfinished '/' ('*' :: cs)

theorem stringExtent_triple (q : Char) (cs : List Char) :
    stringExtent q (q :: q :: cs) = (tripleExtent q cs).after 2 := by
  simp [stringExtent, opensTriple]

theorem reach_triple {q : Char} (hq : isQuote q) (cs : List Char) :
    reach q (q :: q :: cs) = ((tripleExtent q cs).kind, (tripleExtent q cs).length + 2) := by
  rw [reach_quote hq, stringExtent_triple]
  rfl

theorem reach_rawTriple {q : Char} (hq : isQuote q) (cs : List Char) :
    reach 'r' (q :: q :: q :: cs) = ((tripleExtent q cs).kind, (tripleExtent q cs).length + 3) := by
  rw [reach_raw hq, rawReach, stringExtent_triple]
  simp [Extent.after]
  rfl

theorem reach_newline {c : Char} {x : List Char} (h : x.length < (reach c (x ++ ['\n'])).2) :
    isBlank c ∧ (∀ d ∈ x, isBlank d) ∨
    Unfinished c (x ++ ['\n']) ∧ (reach c (x ++ ['\n'])).1 = .errorToken ∧
      (reach c x).1 = .errorToken ∧ ∀ d ∈ x.drop (reach c x).2, isQuote d := by
  have hform := reached c (x ++ ['\n'])
  have hcontra {n : Nat} (hfree : StopFree (x ++ ['\n']) n) (hlt : x.length < n) : False := by
    have := hfree '\n' (by rw [List.take_of_length_le (by simp; omega)]; simp)
    exact absurd this (by decide)
  generalize hcs : x ++ ['\n'] = cs at hform h ⊢
  generalize hr : reach c cs = r at hform h ⊢
  cases hform with
  | blank hb =>
    refine .inl ⟨hb, fun d hd => ?_⟩
    have hle : (x ++ ['\n']).length ≤ runLength isBlank (x ++ ['\n']) := by
      rw [hcs, ← hcs, List.length_append]
      exact hcs ▸ h
    exact of_length_le_runLength hle d (List.mem_append_left _ hd)
  | quote hq =>
    obtain ⟨rest, rfl, hopen, hclosed, hleft⟩ := stringExtent_newline hq (hcs ▸ h)
    subst hcs
    refine .inr ⟨.string hq (by simpa using hopen), ?_, ?_, ?_⟩
    · have hkind : (stringExtent c (c :: c :: (rest ++ ['\n']))).kind = .errorToken := by
        rw [stringExtent_triple, hopen]
        rfl
      exact hkind
    · rw [reach_triple hq]
      simp [Extent.kind, hclosed]
    · rw [reach_triple hq]
      exact hleft
  | number => exact (hcontra (hcs ▸ stopFree_number c cs) h).elim
  | @raw q hc hq rest =>
    cases x with
    | nil => exact absurd (List.cons.inj hcs).1.symm (quote_ne_newline hq)
    | cons a x =>
      obtain ⟨rfl, rfl⟩ := List.cons.inj hcs
      have hlt : x.length < (stringExtent a (x ++ ['\n'])).length := by
        simp only [rawReach] at h
        split at h
        · simp at h
        · simpa using h
      obtain ⟨rest, rfl, hopen, hclosed, hleft⟩ := stringExtent_newline hq hlt
      subst hc
      refine .inr ⟨.raw hq (by simpa using hopen), ?_, ?_, ?_⟩
      · have hkind : (reach 'r' (a :: a :: a :: (rest ++ ['\n']))).1 = .errorToken := by
          rw [reach_rawTriple hq, hopen]
          rfl
        exact hr ▸ hkind
      · rw [reach_rawTriple hq]
        simp [Extent.kind, hclosed]
      · rw [reach_rawTriple hq]
        exact hleft
  | word => exact (hcontra (hcs ▸ stopFree_word c cs) h).elim
  | comment hc rest =>
    cases x with
    | nil => exact absurd (List.cons.inj hcs).1 (by decide)
    | cons a x =>
      obtain ⟨rfl, rfl⟩ := List.cons.inj hcs
      have hle : (x ++ ['\n']).length ≤ runLength (· != '\n') (x ++ ['\n']) := by
        rw [List.length_append]
        exact Nat.lt_of_succ_lt_succ h
      have hnl := of_length_le_runLength hle '\n' (by simp)
      exact absurd hnl (by decide)
  | block hc rest =>
    cases x with
    | nil => exact absurd (List.cons.inj hcs).1 (by decide)
    | cons a x =>
      obtain ⟨rfl, rfl⟩ := List.cons.inj hcs
      subst hc
      have hlt : x.length < blockLength (x ++ ['\n']) := by simpa using h
      have hle := blockLength_le (x ++ ['\n'])
      have hfull : blockLength (x ++ ['\n']) = (x ++ ['\n']).length := by
        simp at hle ⊢
        omega
      have hx : blockLength x = x.length := by
        rcases blockLength_append x ['\n'] with heq | ⟨_, hx⟩
        · have := blockLength_le x
          omega
        · exact hx
      refine .inr ⟨.block hfull (by simp), rfl, by rw [reach_block], ?_⟩
      rw [reach_block, hx]
      simp
  | mark => exact (hcontra (hcs ▸ stopFree_mark c cs) h).elim

theorem Extent.after_after (e : Extent) (m n : Nat) : (e.after m).after n = e.after (m + n) := by
  simp [Extent.after, Nat.add_assoc]

theorem Extent.eq_of_after {e : Extent} {m n : Nat} (h : e.after n = ⟨false, m + n⟩) :
    e = ⟨false, m⟩ := by
  obtain ⟨closed, length⟩ := e
  simpa [Extent.after] using h

theorem tripleExtent_append_of_open {q : Char} {x : List Char}
    (h : tripleExtent q x = ⟨false, x.length⟩) (y : List Char) :
    tripleExtent q (x ++ y) = (tripleExtent q y).after x.length := by
  fun_induction tripleExtent q x with
  | case1 => rfl
  | case2 a as ha ih =>
    rw [List.cons_append, tripleExtent_other ha, ih (Extent.eq_of_after h), Extent.after_after]
    rfl
  | case3 | case5 | case6 => simp at h
  | case4 a ha b bs hb ih =>
    obtain rfl : a = q := Classical.not_not.1 ha
    rw [List.cons_append, List.cons_append, tripleExtent_one hb, ih (Extent.eq_of_after h),
      Extent.after_after]
    rfl
  | case7 a ha b hb c cs hc ih =>
    obtain rfl : a = q := Classical.not_not.1 ha
    obtain rfl : b = a := Classical.not_not.1 hb
    rw [List.cons_append, List.cons_append, List.cons_append, tripleExtent_two hc,
      ih (Extent.eq_of_after h), Extent.after_after]
    rfl

theorem blockLength_append_of_open {x : List Char} (h : blockLength x = x.length)
    (hstar : x.getLast? ≠ some '*') (y : List Char) :
    blockLength (x ++ y) = x.length + blockLength y := by
  induction x with
  | nil => simp
  | cons a x ih =>
    rw [List.cons_append, blockLength_cons]
    rw [blockLength_cons, List.length_cons] at h
    cases x with
    | nil =>
      have ha : a ≠ '*' := by simpa using hstar
      simp [ha]
      omega
    | cons b x =>
      by_cases hclose : a = '*' ∧ b = '/'
      · simp [hclose] at h
      · have hx : blockLength (b :: x) = (b :: x).length := by simpa [hclose] using h
        have hlast : (b :: x).getLast? ≠ some '*' := by
          rwa [List.getLast?_cons_cons] at hstar
        rw [ih hx hlast]
        simp [hclose]
        omega

def importHead : List Char := ['i', 'm', 'p', 'o', 'r', 't', ' ', '\'']

theorem tripleExtent_importHead {q d : Char} (hq : isQuote q) (hd : d ≠ '\'') (y : List Char) :
    8 ≤ (tripleExtent q (importHead ++ d :: y)).length := by
  rcases (by simpa [isQuote] using hq : q = '\'' ∨ q = '"') with rfl | rfl
  · simp [importHead, tripleExtent_other, tripleExtent_one hd, Extent.after]
  · simp [importHead, tripleExtent_other, Extent.after]

theorem blockLength_importHead (y : List Char) : 8 ≤ blockLength (importHead ++ y) := by
  simp [importHead, blockLength_cons]

namespace Unfinished

variable {c : Char} {x : List Char}

theorem reach_append (h : Unfinished c x) (y : List Char) :
    (∃ q, isQuote q ∧
      reach c (x ++ y) = ((tripleExtent q y).kind, x.length + (tripleExtent q y).length)) ∨
    reach c (x ++ y) = (.errorToken, x.length + blockLength y) := by
  cases h with
  | @string _ cs hq hopen =>
    refine .inl ⟨c, hq, ?_⟩
    rw [List.cons_append, List.cons_append, reach_triple hq, tripleExtent_append_of_open hopen]
    refine Prod.ext rfl ?_
    simp only [Extent.after, List.length_cons]
    omega
  | @raw q cs hq hopen =>
    refine .inl ⟨q, hq, ?_⟩
    rw [List.cons_append, List.cons_append, List.cons_append, reach_rawTriple hq,
      tripleExtent_append_of_open hopen]
    refine Prod.ext rfl ?_
    simp only [Extent.after, List.length_cons]
    omega
  | @block cs hopen hstar =>
    refine .inr ?_
    rw [List.cons_append, reach_block, blockLength_append_of_open hopen hstar]
    refine Prod.ext rfl ?_
    simp only [List.length_cons]
    omega

theorem reach_import (h : Unfinished c x) {d : Char} (hd : d ≠ '\'') (y : List Char) :
    x.length + 8 ≤ (reach c (x ++ importHead ++ d :: y)).2 ∧
    ((reach c (x ++ importHead ++ d :: y)).1 = .string ∨
      (reach c (x ++ importHead ++ d :: y)).1 = .errorToken) := by
  rw [List.append_assoc]
  rcases h.reach_append (importHead ++ d :: y) with ⟨q, hq, hr⟩ | hr
  · rw [hr]
    exact ⟨Nat.add_le_add_left (tripleExtent_importHead hq hd y) _, kind_extent _⟩
  · rw [hr]
    exact ⟨Nat.add_le_add_left (blockLength_importHead _) _, .inr rfl⟩

end Unfinished

theorem runLength_of_all {p : Char → Bool} {x : List Char} (h : ∀ c ∈ x, p c) :
    runLength p x = x.length := by
  induction x with
  | nil => rfl
  | cons a x ih =>
    obtain ⟨ha, hx⟩ := List.forall_mem_cons.1 h
    simp [runLength, ha, ih hx]

theorem kind_of_quotes {cs : List Char} (h : ∀ c ∈ cs, isQuote c) :
    ∀ t ∈ scanChars cs, t.kind = .string ∨ t.kind = .errorToken := by
  have hscan := scans_scanChars cs
  generalize scanChars cs = ts at hscan
  generalize hrest : ([] : List Char) = rest at hscan
  induction hscan with
  | done => simp
  | @next c cs ts rest hnext ih =>
    obtain ⟨hc, hcs⟩ := List.forall_mem_cons.1 h
    refine List.forall_mem_cons.2 ⟨?_, ih (fun d hd => hcs d (List.mem_of_mem_drop hd)) hrest⟩
    rw [kind_first, reach_quote hc]
    exact kind_extent _

/-- What ending its last line does to the tokens `old` of a text: `ts` stay and `last` follows. -/
inductive LineEnds (old : List Token) : List Token → Token → Prop
  | fresh {last : Token} : last.kind = .whitespace → LineEnds old old last
  | merged {ts : List Token} {w last : Token} : old = ts ++ [w] → w.kind = .whitespace →
      last.kind = .whitespace → LineEnds old ts last
  | absorbed {ts es : List Token} {e last : Token} : old = ts ++ e :: es →
      e.kind = .errorToken → (∀ t ∈ es, t.kind = .string ∨ t.kind = .errorToken) →
      last.kind = .errorToken → LineEnds old ts last

theorem LineEnds.cons {old ts : List Token} {last : Token} (t : Token)
    (h : LineEnds old ts last) : LineEnds (t :: old) (t :: ts) last := by
  cases h with
  | fresh hlast => exact .fresh hlast
  | merged hts hw hlast => exact .merged (by rw [hts]; rfl) hw hlast
  | absorbed hts he hes hlast => exact .absorbed (by rw [hts]; rfl) he hes hlast

theorem exists_newline (x : List Char) :
    ∃ ts last, Scans (x ++ ['\n']) (ts ++ [last]) [] ∧ LineEnds (scanChars x) ts last := by
  induction h : x.length using Nat.strongRecOn generalizing x with
  | _ n ih =>
    cases x with
    | nil => exact ⟨[], first '\n' [], .next (.done []), .fresh rfl⟩
    | cons c x =>
      rcases Nat.lt_or_ge x.length (reach c (x ++ ['\n'])).2 with hlt | hle
      · have hscan : Scans (c :: (x ++ ['\n'])) [first c (x ++ ['\n'])] [] := by
          refine .next ?_
          rw [List.drop_of_length_le (by rw [List.length_append]; exact hlt)]
          exact .done []
        refine ⟨[], _, hscan, ?_⟩
        have hcons : scanChars (c :: x) = first c x :: scanChars (x.drop (reach c x).2) :=
          scanChars_cons c x
        rcases reach_newline hlt with ⟨hc, hx⟩ | ⟨_, hlast, hkind, hleft⟩
        · have hfull : (reach c x).2 = x.length := by
            rw [reach_blank hc]
            exact runLength_of_all hx
          rw [hfull, List.drop_length] at hcons
          refine .merged hcons ?_ ?_ <;> rw [kind_first, reach_blank hc]
        · exact .absorbed hcons hkind (kind_of_quotes hleft) hlast
      · rcases reach_append c x ['\n'] with hsame | ⟨hlt, _⟩
        · rw [hsame] at hle
          obtain ⟨ts, last, hscan, hnew⟩ :=
            ih _ (by rw [← h, List.length_drop, List.length_cons]; omega) (x.drop (reach c x).2) rfl
          refine ⟨first c x :: ts, last, .next_append hsame hle hscan, ?_⟩
          rw [scanChars_cons]
          exact hnew.cons _
        · omega

theorem Scans.last_newline {x : List Char} {ts : List Token} {last : Token}
    (h : Scans (x ++ ['\n']) (ts ++ [last]) []) :
    last.kind = .whitespace ∨
    last.kind = .errorToken ∧ ∃ c cs, Unfinished c cs ∧ last.text.toList = c :: cs := by
  obtain ⟨mid, hts, hlast⟩ := h.split rfl
  obtain ⟨c, cs, rfl, rfl, hle⟩ := hlast.single
  have htext : (first c cs).text.toList = c :: cs := by simpa using hlast.chars_eq.symm
  have hend := congrArg List.getLast? hts.chars_eq
  rw [List.getLast?_append] at hend
  cases hl : cs.getLast? with
  | none =>
    obtain rfl := List.getLast?_eq_none_iff.1 hl
    obtain rfl : '\n' = c := by simpa using hend
    exact .inl rfl
  | some d =>
    obtain ⟨x', hx'⟩ := List.getLast?_eq_some_iff.1 hl
    obtain rfl : '\n' = d := by simpa [List.getLast?_cons, hl] using hend
    subst hx'
    rw [List.length_append] at hle
    rcases reach_newline hle with ⟨hc, _⟩ | ⟨hopen, hkind, _⟩
    · exact .inl (by rw [kind_first, reach_blank hc])
    · exact .inr ⟨hkind, c, _, hopen, htext⟩

end CrossReference.Source.Token
