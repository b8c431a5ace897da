import CrossReference.Proofs.Scanning.Seam
import CrossReference.Source.Literal

namespace CrossReference.Source

structure Quotes (cs mark body : List Char) : Prop where
  delimiter : mark ∈ Literal.delimiters
  text : cs = mark ++ (body ++ mark)
  triple : mark.length = 3 ↔ ∃ q, Token.isQuote q = true ∧ [q, q, q] <+: cs

namespace Token

inductive LineBody (q : Char) : List Char → Prop where
  | nil : LineBody q []
  | plain {c : Char} {cs : List Char} :
      c ≠ q → c ≠ '\\' → c ≠ '\n' → LineBody q cs → LineBody q (c :: cs)
  | pair {c : Char} {cs : List Char} :
      c ≠ '\n' → LineBody q cs → LineBody q ('\\' :: c :: cs)

inductive TripleBody (q : Char) : List Char → Prop where
  | nil : TripleBody q []
  | other {c : Char} {cs : List Char} : c ≠ q → TripleBody q cs → TripleBody q (c :: cs)
  | one {c : Char} {cs : List Char} : c ≠ q → TripleBody q cs → TripleBody q (q :: c :: cs)
  | two {c : Char} {cs : List Char} : c ≠ q → TripleBody q cs → TripleBody q (q :: q :: c :: cs)

inductive Pattern : List Char → List Char → Prop where
  | line {q : Char} {body : List Char} :
      isQuote q = true → LineBody q body → Pattern [q] body
  | triple {q : Char} {body : List Char} :
      isQuote q = true → TripleBody q body → Pattern [q, q, q] body

def rawMark (raw : Bool) : List Char := if raw then ['r'] else []

structure Fits (t : Token) (raw : Bool) (mark body : List Char) : Prop where
  text : t.text.toList = rawMark raw ++ (mark ++ (body ++ mark))
  pattern : Pattern mark body

variable {q : Char} {cs : List Char}

theorem lineExtent_closed (h : (lineExtent q cs).closed = true) :
    ∃ body, cs.take (lineExtent q cs).length = body ++ [q] ∧ LineBody q body := by
  fun_induction lineExtent q cs with
  | case1 | case2 | case3 | case4 => cases h
  | case5 c cs hc ih =>
    obtain ⟨body, hbody, hline⟩ := ih h
    exact ⟨'\\' :: c :: body, congrArg ('\\' :: c :: ·) hbody, .pair hc hline⟩
  | case6 => exact ⟨[], rfl, .nil⟩
  | case7 c cs hn hlone _ hpair hcq ih =>
    obtain ⟨body, hbody, hline⟩ := ih h
    exact ⟨c :: body, congrArg (c :: ·) hbody, .plain hcq (ne_backslash hlone hpair) hn hline⟩

theorem tripleExtent_closed (h : (tripleExtent q cs).closed = true) :
    ∃ body, cs.take (tripleExtent q cs).length = body ++ [q, q, q] ∧ TripleBody q body := by
  fun_induction tripleExtent q cs with
  | case1 | case3 | case5 => cases h
  | case2 a as ha ih =>
    obtain ⟨body, hbody, htriple⟩ := ih h
    exact ⟨a :: body, congrArg (a :: ·) hbody, .other ha htriple⟩
  | case4 a ha b bs hb ih =>
    obtain rfl : a = q := Classical.not_not.1 ha
    obtain ⟨body, hbody, htriple⟩ := ih h
    exact ⟨a :: b :: body, congrArg (a :: b :: ·) hbody, .one hb htriple⟩
  | case6 a ha b hb =>
    obtain rfl : a = q := Classical.not_not.1 ha
    obtain rfl : b = a := Classical.not_not.1 hb
    exact ⟨[], rfl, .nil⟩
  | case7 a ha b hb c cs hc ih =>
    obtain rfl : a = q := Classical.not_not.1 ha
    obtain rfl : b = a := Classical.not_not.1 hb
    obtain ⟨body, hbody, htriple⟩ := ih h
    exact ⟨b :: b :: c :: body, congrArg (b :: b :: c :: ·) hbody, .two hc htriple⟩

theorem opensTriple_iff : opensTriple q cs = true ↔ [q, q] <+: cs := by
  match cs with
  | [] => simp [opensTriple]
  | [a] => simp [opensTriple]
  | a :: b :: cs => simp [opensTriple, @eq_comm _ q]

theorem exists_pattern_of_closed (hq : isQuote q = true) (h : (stringExtent q cs).closed = true) :
    ∃ mark body, q :: cs.take (stringExtent q cs).length = mark ++ (body ++ mark) ∧
      Pattern mark body := by
  cases hopens : opensTriple q cs with
  | true =>
    obtain ⟨rest, rfl⟩ := opensTriple_iff.1 hopens
    rw [stringExtent, if_pos hopens] at h ⊢
    obtain ⟨body, hbody, htriple⟩ := tripleExtent_closed h
    exact ⟨[q, q, q], body, congrArg ([q, q, q] ++ ·) hbody, .triple hq htriple⟩
  | false =>
    have hsingle : ¬ opensTriple q cs = true := by simp [hopens]
    rw [stringExtent, if_neg hsingle] at h ⊢
    obtain ⟨body, hbody, hline⟩ := lineExtent_closed h
    exact ⟨[q], body, congrArg (q :: ·) hbody, .line hq hline⟩

theorem LineBody.not_opens {body : List Char} (h : LineBody q body) (hq : isQuote q = true)
    (p : Char) : ¬ [p, p, p] <+: q :: (body ++ [q]) := by
  intro hopens
  obtain ⟨rfl, hquotes⟩ := List.cons_prefix_cons.1 hopens
  cases h with
  | nil =>
    have := hquotes.length_le
    simp at this
  | plain hc => exact hc (List.cons_prefix_cons.1 hquotes).1.symm
  | pair =>
    obtain ⟨rfl, -⟩ := List.cons_prefix_cons.1 hquotes
    cases hq

theorem Pattern.quotes {mark body : List Char} (h : Pattern mark body) :
    Quotes (mark ++ (body ++ mark)) mark body := by
  cases h with
  | @line q _ hq hline =>
    refine ⟨?_, rfl, iff_of_false (by simp) ?_⟩
    · rcases (by simpa [isQuote] using hq : q = '\'' ∨ q = '"') with rfl | rfl <;>
        simp [Literal.delimiters]
    · rintro ⟨p, -, hopens⟩
      exact hline.not_opens hq p hopens
  | @triple q _ hq =>
    refine ⟨?_, rfl, iff_of_true rfl ⟨q, hq, List.prefix_append _ _⟩⟩
    rcases (by simpa [isQuote] using hq : q = '\'' ∨ q = '"') with rfl | rfl <;>
      simp [Literal.delimiters]

theorem exists_fits_of_string {text : String} {t : Token} (h : t ∈ scan text)
    (hkind : t.kind = .string) : ∃ raw mark body, t.Fits raw mark body := by
  have hmarks : ∀ m ∈ marks, m.2 ≠ .string := by decide
  obtain ⟨c, cs, rfl⟩ := exists_first h
  rw [kind_first] at hkind
  have htext := toList_text_first c cs
  have hclosed {e : Extent} (he : e.kind = .string) : e.closed = true := by
    cases hc : e.closed with
    | true => rfl
    | false => simp [Extent.kind, hc] at he
  have hform := reached c cs
  generalize reach c cs = r at hkind hform htext
  cases hform with
  | blank | comment | block => cases hkind
  | quote hq =>
    obtain ⟨mark, body, hcut, hpattern⟩ := exists_pattern_of_closed hq (hclosed hkind)
    exact ⟨false, mark, body, htext.trans hcut, hpattern⟩
  | number =>
    rcases kind_numberReach c cs with he | he <;> simp [he] at hkind
  | @raw q hc hq rest =>
    subst hc
    rw [rawReach] at hkind htext
    split at hkind
    · cases hkind
    · next hopen =>
      obtain ⟨mark, body, hcut, hpattern⟩ := exists_pattern_of_closed hq (hclosed hkind)
      rw [if_neg hopen] at htext
      exact ⟨true, mark, body, htext.trans (congrArg ('r' :: ·) hcut), hpattern⟩
  | word =>
    exact absurd hkind (ofWord_ne (by decide) (by decide) _)
  | mark =>
    rw [markReach] at hkind
    split at hkind
    · next m hm => exact absurd hkind (hmarks m (List.mem_of_find?_eq_some hm))
    · cases hkind

theorem exists_quotes_of_string {text : String} {t : Token} (h : t ∈ scan text)
    (hkind : t.kind = .string) :
    ∃ raw cs mark body, t.text.toList = raw ++ cs ∧ (raw = [] ∨ raw = ['r']) ∧
      Quotes cs mark body := by
  obtain ⟨raw, mark, body, hfits⟩ := exists_fits_of_string h hkind
  refine ⟨rawMark raw, _, mark, body, hfits.text, ?_, hfits.pattern.quotes⟩
  cases raw
  · exact .inl rfl
  · exact .inr rfl

end Token

namespace Quotes

open Literal

variable {cs mark body : List Char}

theorem encloses_self (mark body : List Char) : encloses mark (mark ++ (body ++ mark)) = true := by
  have hsuffix : mark <:+ mark ++ (body ++ mark) := ⟨mark ++ body, by simp⟩
  simp [encloses, hsuffix]
  omega

theorem not_encloses {other : List Char} (h : ¬ other <+: cs) : encloses other cs = false := by
  simp [encloses, h]

theorem find?_delimiters (h : Quotes cs mark body) :
    delimiters.find? (encloses · cs) = some mark := by
  obtain ⟨hmark, rfl, htriple⟩ := h
  have hself := encloses_self mark body
  have hsingle {q : Char} (hq : Token.isQuote q = true) (hlength : mark.length ≠ 3) :
      encloses [q, q, q] (mark ++ (body ++ mark)) = false :=
    not_encloses fun hopens => hlength (htriple.2 ⟨q, hq, hopens⟩)
  simp only [delimiters, List.mem_cons, List.not_mem_nil, or_false] at hmark
  rcases hmark with rfl | rfl | rfl | rfl
  · simp only [delimiters, List.find?, hself]
  · have hother :
        encloses ['\'', '\'', '\''] (['"', '"', '"'] ++ (body ++ ['"', '"', '"'])) = false :=
      not_encloses (by simp)
    simp only [delimiters, List.find?, hother, hself]
  · simp only [delimiters, List.find?, hsingle (q := '\'') rfl (by decide),
      hsingle (q := '"') rfl (by decide), hself]
  · have hother : encloses ['\''] (['"'] ++ (body ++ ['"'])) = false := not_encloses (by simp)
    simp only [delimiters, List.find?, hsingle (q := '\'') rfl (by decide),
      hsingle (q := '"') rfl (by decide), hother, hself]

theorem body?_eq (h : Quotes cs mark body) : body? cs = some body := by
  have hlength : (mark ++ (body ++ mark)).length - 2 * mark.length = body.length := by
    simp only [List.length_append]
    omega
  rw [body?, h.find?_delimiters, h.text, Option.map_some, List.drop_left, hlength, List.take_left]

theorem head?_ne_raw (h : Quotes cs mark body) : cs.head? ≠ some 'r' := by
  obtain ⟨hmark, rfl, -⟩ := h
  simp only [delimiters, List.mem_cons, List.not_mem_nil, or_false] at hmark
  rcases hmark with rfl | rfl | rfl | rfl <;> simp

theorem unquote?_eq {text : String} (h : Quotes text.toList mark body) :
    unquote? text = (unescape? body).map String.ofList := by
  have hhead := h.head?_ne_raw
  unfold unquote?
  split
  · next hraw =>
    rw [hraw] at hhead
    exact absurd rfl hhead
  · rw [h.body?_eq]
    rfl

theorem unquote?_raw {text : String} (htext : text.toList = 'r' :: cs) (h : Quotes cs mark body) :
    unquote? text = some (String.ofList body) := by
  rw [unquote?, htext]
  exact congrArg (Option.map String.ofList) h.body?_eq

end Quotes

namespace Token.Fits

variable {t : Token} {raw : Bool} {mark body : List Char}

theorem raw_iff (h : t.Fits raw mark body) : raw = true ↔ t.text.toList.head? = some 'r' := by
  rw [h.text]
  cases raw with
  | true => simp [rawMark]
  | false => simpa [rawMark] using h.pattern.quotes.head?_ne_raw

theorem unique (h : t.Fits raw mark body) {raw' : Bool} {mark' body' : List Char}
    (h' : t.Fits raw' mark' body') : raw' = raw ∧ mark' = mark ∧ body' = body := by
  obtain rfl : raw' = raw := Bool.eq_iff_iff.2 (h'.raw_iff.trans h.raw_iff.symm)
  have htext := List.append_cancel_left (h'.text.symm.trans h.text)
  obtain rfl : mark' = mark := by
    refine Option.some.inj ?_
    rw [← h'.pattern.quotes.find?_delimiters, htext, h.pattern.quotes.find?_delimiters]
  exact ⟨rfl, rfl, List.append_cancel_right (List.append_cancel_left htext)⟩

theorem unquote?_eq (h : t.Fits raw mark body) :
    Literal.unquote? t.text =
      if raw then some (String.ofList body)
      else (Literal.unescape? body).map String.ofList := by
  have hquotes := h.pattern.quotes
  have htext := h.text
  cases raw with
  | true => exact hquotes.unquote?_raw htext
  | false =>
    rw [rawMark, if_neg Bool.false_ne_true, List.nil_append] at htext
    rw [← htext] at hquotes
    exact hquotes.unquote?_eq

end Token.Fits

end CrossReference.Source
