import CrossReference.Proofs.Printing.Lexeme
import CrossReference.Source.Literal

namespace CrossReference.Source

inductive QuoteMark where
  | single | double
deriving DecidableEq

def QuoteMark.char : QuoteMark → Char
  | single => '\''
  | double => '"'

theorem QuoteMark.isQuote_char (m : QuoteMark) : Token.isQuote m.char = true := by
  cases m <;> rfl

def escaped (q c : Char) : List Char :=
  if c = '\n' then ['\\', 'n'] else if c ∈ ['\\', '$', q] then ['\\', c] else [c]

theorem escaped_cases (q c : Char) :
    c = '\n' ∧ escaped q c = ['\\', 'n'] ∨
    (c ≠ '\n' ∧ (c = '\\' ∨ c = '$' ∨ c = q)) ∧ escaped q c = ['\\', c] ∨
    (c ≠ '\n' ∧ c ≠ '\\' ∧ c ≠ '$' ∧ c ≠ q) ∧ escaped q c = [c] := by
  by_cases hn : c = '\n'
  · exact .inl ⟨hn, if_pos hn⟩
  · by_cases hc : c ∈ ['\\', '$', q]
    · exact .inr (.inl ⟨⟨hn, by simpa using hc⟩, (if_neg hn).trans (if_pos hc)⟩)
    · exact .inr (.inr ⟨⟨hn, by simpa using hc⟩, (if_neg hn).trans (if_neg hc)⟩)

structure Quotation where
  mark : QuoteMark
  value : String

namespace Quotation

def body (p : Quotation) : List Char := p.value.toList.flatMap (escaped p.mark.char)

def print (p : Quotation) : String :=
  String.ofList (p.mark.char :: (p.body ++ [p.mark.char]))

def token (p : Quotation) : Token := ⟨.string, p.print⟩

@[simp] theorem kind_token (p : Quotation) : p.token.kind = .string := rfl

end Quotation

namespace Token

variable {q c : Char}

theorem lineExtent_escape (hn : c ≠ '\n') (cs : List Char) :
    lineExtent q ('\\' :: c :: cs) = (lineExtent q cs).after 2 := by
  rw [lineExtent]
  rintro rfl
  exact hn rfl

theorem lineExtent_escaped (q c : Char) (cs : List Char) :
    lineExtent q (escaped q c ++ cs) = (lineExtent q cs).after (escaped q c).length := by
  rcases escaped_cases q c with ⟨-, h⟩ | ⟨⟨hn, -⟩, h⟩ | ⟨⟨hn, hescape, -, hq⟩, h⟩
  · rw [h]
    exact lineExtent_escape (by decide) cs
  · rw [h]
    exact lineExtent_escape hn cs
  · rw [h]
    exact (lineExtent_cons hn hescape cs).trans (if_neg hq)

theorem lineExtent_body (hq : isQuote q = true) (cs y : List Char) :
    lineExtent q (cs.flatMap (escaped q) ++ q :: y) =
      ⟨true, (cs.flatMap (escaped q)).length + 1⟩ := by
  induction cs with
  | nil =>
    have hother : q ≠ '\n' ∧ q ≠ '\\' := by
      constructor <;> rintro rfl <;> cases hq
    simp [lineExtent_cons hother.1 hother.2]
  | cons c cs ih =>
    rw [List.flatMap_cons, List.append_assoc, lineExtent_escaped, ih]
    simp [Extent.after]
    omega

theorem head?_escaped (hq : isQuote q = true) (c : Char) (cs : List Char) :
    (escaped q c ++ cs).head? ≠ some q := by
  have hescape : '\\' ≠ q := by
    rintro rfl
    cases hq
  rcases escaped_cases q c with ⟨-, h⟩ | ⟨-, h⟩ | ⟨⟨-, -, -, hother⟩, h⟩
  · simpa [h] using hescape
  · simpa [h] using hescape
  · simpa [h] using hother

end Token

namespace Quotation

open Token

variable (p : Quotation)

theorem toList_print : p.print.toList = p.mark.char :: (p.body ++ [p.mark.char]) :=
  String.toList_ofList ..

example : (Quotation.mk .single "it's \"$5\"\n").print = "'it\\'s \"\\$5\"\\n'" := by decide

theorem head?_body (y : List Char) (hy : y.head? ≠ some p.mark.char) :
    (p.body ++ y).head? ≠ some p.mark.char := by
  cases htext : p.value.toList with
  | nil => simpa [body, htext] using hy
  | cons c cs =>
    rw [body, htext, List.flatMap_cons, List.append_assoc]
    exact head?_escaped p.mark.isQuote_char c _

theorem opensTriple_body {d : Char} (hd : d ≠ p.mark.char) (y : List Char) :
    opensTriple p.mark.char (p.body ++ p.mark.char :: d :: y) = false := by
  cases hbody : p.body with
  | nil => simp [opensTriple, hd]
  | cons a u =>
    have ha : a ≠ p.mark.char := by
      simpa [hbody] using p.head?_body [] (by simp)
    cases u <;> simp [opensTriple, ha]

theorem stands {y : List Char} (hy : y.head?.any (!isQuote ·) = true) : p.token.Stands y := by
  obtain ⟨d, y, rfl, hd⟩ := exists_of_head hy
  have hother : d ≠ p.mark.char := by
    rintro rfl
    simp [p.mark.isQuote_char] at hd
  refine stands_of_reach p.toList_print ?_
  rw [reach_quote p.mark.isQuote_char, List.append_assoc, List.singleton_append, stringExtent,
    p.opensTriple_body hother]
  simp [body, lineExtent_body p.mark.isQuote_char, Extent.kind]

end Quotation

namespace Literal

variable {q : Char}

theorem unescape?_escape {c d : Char} (cs : List Char)
    (h : escape? (c :: cs) = some (d, cs)) :
    unescape? ('\\' :: c :: cs) = (unescape? cs).map (d :: ·) := by
  rw [unescape?]
  split
  · next r hr =>
    obtain rfl : (d, cs) = r := by simpa [h] using hr
    rfl
  · next hr => simp [h] at hr

theorem unescape?_escaped (hq : Token.isQuote q = true) (c : Char) (cs : List Char) :
    unescape? (escaped q c ++ cs) = (unescape? cs).map (c :: ·) := by
  rcases escaped_cases q c with ⟨rfl, h⟩ | ⟨⟨-, hc⟩, h⟩ | ⟨⟨-, hescape, hdollar, -⟩, h⟩
  · rw [h]
    exact unescape?_escape cs rfl
  · rw [h]
    refine unescape?_escape cs ?_
    rcases hc with rfl | rfl | rfl
    · rfl
    · rfl
    · rcases (by simpa [Token.isQuote] using hq : c = '\'' ∨ c = '"') with rfl | rfl <;> rfl
  · rw [h, List.singleton_append, unescape?]
    · exact hdollar
    · exact hescape

theorem unescape?_body (hq : Token.isQuote q = true) (cs : List Char) :
    unescape? (cs.flatMap (escaped q)) = some cs := by
  induction cs with
  | nil => simp [unescape?]
  | cons c cs ih =>
    rw [List.flatMap_cons, unescape?_escaped hq, ih]
    rfl

theorem body?_between (hq : Token.isQuote q = true) {cs : List Char} (h : cs.head? ≠ some q) :
    body? (q :: (cs ++ [q])) = some cs := by
  have hsuffix : [q] <:+ q :: (cs ++ [q]) := ⟨q :: cs, by simp⟩
  have htriple (m : Char) : encloses [m, m, m] (q :: (cs ++ [q])) = false := by
    cases cs with
    | nil => rfl
    | cons c cs =>
      have hc : c ≠ q := by simpa using h
      simp only [encloses, List.cons_append, List.isPrefixOf, Bool.and_eq_false_imp,
        Bool.and_eq_true, beq_iff_eq]
      rintro ⟨-, rfl, hm, -⟩
      exact absurd hm.symm hc
  have hsingle : encloses [q] (q :: (cs ++ [q])) = true := by simp [encloses, hsuffix]
  have hfound : delimiters.find? (encloses · (q :: (cs ++ [q]))) = some [q] := by
    have hcases : q = '\'' ∨ q = '"' := by simpa [Token.isQuote] using hq
    rcases hcases with rfl | rfl
    · simp only [delimiters, List.find?, htriple, hsingle]
    · have hother : encloses ['\''] ('"' :: (cs ++ ['"'])) = false := by simp [encloses]
      simp only [delimiters, List.find?, htriple, hother, hsingle]
  simp [body?, hfound]

end Literal

theorem Quotation.unquote?_token (p : Quotation) :
    Literal.unquote? p.token.text = some p.value := by
  have hhead : p.body.head? ≠ some p.mark.char := by simpa using p.head?_body [] (by simp)
  have hbody : Literal.body? (p.mark.char :: (p.body ++ [p.mark.char])) = some p.body :=
    Literal.body?_between p.mark.isQuote_char hhead
  have hvalue : Literal.unescape? p.body = some p.value.toList :=
    Literal.unescape?_body p.mark.isQuote_char _
  have hraw : p.mark.char ≠ 'r' := by cases p.mark <;> decide
  rw [Literal.unquote?, token, toList_print]
  split
  · next h => exact absurd (List.cons.inj h).1 hraw
  · simp [hbody, hvalue]

namespace Quoted

open Token

def quotation (q : Quoted) : Quotation := ⟨.single, q.1⟩

theorem body_quotation (q : Quoted) : q.quotation.body = q.1.toList := by
  have hplain : ∀ c ∈ q.1.toList, escaped '\'' c = [c] := by
    intro c hc
    obtain ⟨hquote, hescape, hdollar, hline⟩ := q.plain c hc
    simp [escaped, hquote, hescape, hdollar, hline]
  calc q.quotation.body
      = (q.1.toList.map (escaped '\'')).flatten := List.flatMap_def
    _ = (q.1.toList.map fun c => [c]).flatten := by rw [List.map_congr_left hplain]
    _ = q.1.toList := by rw [← List.flatMap_def, List.flatMap_singleton']

theorem token_quotation (q : Quoted) : q.quotation.token = q.token := by
  have hprint : q.quotation.print = "'" ++ q.1 ++ "'" := by
    rw [Quotation.print, body_quotation]
    simp [quotation, QuoteMark.char, String.ext_iff]
  rw [Quotation.token, hprint, Quoted.token]

theorem stands (q : Quoted) {y : List Char} (hy : y.head?.any (!isQuote ·) = true) :
    q.token.Stands y := by
  rw [← q.token_quotation]
  exact q.quotation.stands hy

theorem unquote?_token (q : Quoted) : Literal.unquote? q.token.text = some q.1 := by
  rw [← q.token_quotation]
  exact q.quotation.unquote?_token

end Quoted

end CrossReference.Source
