import CrossReference.Proofs.Import.Line

namespace CrossReference.Source

def isWord (text : String) : Bool :=
  (match text.toList with
    | c :: cs => Token.isWordStart c && cs.all Token.isWordChar
    | [] => false) &&
  TokenKind.ofWord text == .ident

def isDigits (text : String) : Bool := !text.toList.isEmpty && text.toList.all Char.isDigit

def isLiteral (text : String) : Bool :=
  text.toList.all fun c => !List.contains ['\'', '\\', '$', '\n'] c

def isBlanks (text : String) : Bool := !text.toList.isEmpty && text.toList.all Token.isBlank

abbrev Word := { text : String // isWord text = true }

abbrev Digits := { text : String // isDigits text = true }

abbrev Quoted := { text : String // isLiteral text = true }

abbrev Blanks := { text : String // isBlanks text = true }

namespace Word

def token (w : Word) : Token := ⟨.ident, w.1⟩

@[simp] theorem kind_token (w : Word) : w.token.kind = .ident := rfl

@[simp] theorem text_token (w : Word) : w.token.text = w.1 := rfl

end Word

namespace Digits

def token (d : Digits) : Token := ⟨.intNumber, d.1⟩

@[simp] theorem kind_token (d : Digits) : d.token.kind = .intNumber := rfl

end Digits

namespace Quoted

def token (q : Quoted) : Token := ⟨.string, "'" ++ q.1 ++ "'"⟩

@[simp] theorem kind_token (q : Quoted) : q.token.kind = .string := rfl

end Quoted

namespace Blanks

def token (b : Blanks) : Token := ⟨.whitespace, b.1⟩

@[simp] theorem isTrivia_token (b : Blanks) : b.token.isTrivia = true := rfl

@[simp] theorem text_token (b : Blanks) : b.token.text = b.1 := rfl

end Blanks

namespace Token

def space : Token := ⟨.whitespace, " "⟩

def line : Token := ⟨.whitespace, "\n"⟩

def indent : Token := ⟨.whitespace, "\n  "⟩

def sign (kind : TokenKind) : Token :=
  ⟨kind, String.ofList (((marks.find? (·.2 = kind)).map Prod.fst).getD [])⟩

def keyword (kind : TokenKind) : Token :=
  ⟨kind, ((TokenKind.keywords.find? (·.2 = kind)).map Prod.fst).getD ""⟩

@[simp] theorem kind_sign (kind : TokenKind) : (sign kind).kind = kind := rfl

@[simp] theorem kind_keyword (kind : TokenKind) : (keyword kind).kind = kind := rfl

@[simp] theorem text_space : space.text = " " := rfl

@[simp] theorem text_line : line.text = "\n" := rfl

@[simp] theorem text_indent : indent.text = "\n  " := rfl

@[simp] theorem text_dot : (sign .dot).text = "." := rfl

@[simp] theorem text_comma : (sign .comma).text = "," := rfl

@[simp] theorem text_semicolon : (sign .semicolon).text = ";" := rfl

@[simp] theorem text_eq : (sign .eq).text = "=" := rfl

@[simp] theorem text_fatArrow : (sign .fatArrow).text = "=>" := rfl

@[simp] theorem text_lParen : (sign .lParen).text = "(" := rfl

@[simp] theorem text_rParen : (sign .rParen).text = ")" := rfl

@[simp] theorem text_lBrack : (sign .lBrack).text = "[" := rfl

@[simp] theorem text_rBrack : (sign .rBrack).text = "]" := rfl

@[simp] theorem text_lBrace : (sign .lBrace).text = r"{" := rfl

@[simp] theorem text_rBrace : (sign .rBrace).text = r"}" := rfl

@[simp] theorem text_lAngle : (sign .lAngle).text = "<" := rfl

@[simp] theorem text_rAngle : (sign .rAngle).text = ">" := rfl

@[simp] theorem text_finalKw : (keyword .finalKw).text = "final" := rfl

@[simp] theorem text_classKw : (keyword .classKw).text = "class" := rfl

@[simp] theorem text_staticKw : (keyword .staticKw).text = "static" := rfl

@[simp] theorem text_constKw : (keyword .constKw).text = "const" := rfl

@[simp] theorem text_returnKw : (keyword .returnKw).text = "return" := rfl

def Stands (t : Token) (y : List Char) : Prop := Scans (t.text.toList ++ y) [t] y

theorem Scans.cons {t : Token} {ts : List Token} {y : List Char} (ht : t.Stands (chars ts ++ y))
    (hts : Scans (chars ts ++ y) ts y) : Scans (chars (t :: ts) ++ y) (t :: ts) y := by
  have h := ht.append hts
  simpa using h

theorem Scans.join {ts us : List Token} {y : List Char}
    (hts : Scans (chars ts ++ (chars us ++ y)) ts (chars us ++ y))
    (hus : Scans (chars us ++ y) us y) : Scans (chars (ts ++ us) ++ y) (ts ++ us) y := by
  have h := hts.append hus
  rwa [← List.append_assoc, ← chars_append] at h

theorem exists_of_head {p : Char → Bool} {y : List Char} (h : y.head?.any p = true) :
    ∃ d y', y = d :: y' ∧ p d = true := by
  cases y with
  | nil => cases h
  | cons d y => exact ⟨d, y, rfl, h⟩

theorem stands_of_reach {c : Char} {x y : List Char} {kind : TokenKind} {text : String}
    (htext : text.toList = c :: x) (h : reach c (x ++ y) = (kind, x.length)) :
    Stands ⟨kind, text⟩ y := by
  have hscans := Import.scans_of_reach h (.done y)
  rw [← htext, String.ofList_toList] at hscans
  rw [Stands, htext]
  exact hscans

theorem stands_blank {text : String} {c : Char} {x y : List Char} (htext : text.toList = c :: x)
    (hblank : (c :: x).all isBlank = true) (hy : y.head?.any (!isBlank ·) = true) :
    Stands ⟨.whitespace, text⟩ y := by
  obtain ⟨d, y, rfl, hd⟩ := exists_of_head hy
  obtain ⟨hc, hx⟩ := List.forall_mem_cons.1 (List.all_eq_true.1 hblank)
  refine stands_of_reach htext ?_
  rw [reach_blank hc, runLength_append_of_head (by simpa using hd), runLength_of_all hx]

theorem stands_space {y : List Char} (hy : y.head?.any (!isBlank ·) = true) : space.Stands y :=
  stands_blank rfl rfl hy

theorem stands_line {y : List Char} (hy : y.head?.any (!isBlank ·) = true) : line.Stands y :=
  stands_blank rfl rfl hy

theorem stands_indent {y : List Char} (hy : y.head?.any (!isBlank ·) = true) : indent.Stands y :=
  stands_blank rfl rfl hy

def opensMark (c : Char) : Bool :=
  !isBlank c && !isQuote c && !c.isDigit && !isWordStart c && c != '/'

theorem stands_mark {c : Char} {x y : List Char} {kind : TokenKind} (hc : opensMark c = true)
    (h : marks.find? (fun m => m.1.isPrefixOf (c :: (x ++ y))) = some (c :: x, kind)) :
    Stands ⟨kind, String.ofList (c :: x)⟩ y := by
  simp only [opensMark, Bool.and_eq_true, Bool.not_eq_true', bne_iff_ne] at hc
  obtain ⟨⟨⟨⟨hblank, hquote⟩, hdigit⟩, hword⟩, hslash⟩ := hc
  refine stands_of_reach (String.toList_ofList ..) ?_
  rw [reach_mark hblank hquote hdigit hword fun _ _ h => absurd h hslash, markReach, h]
  rfl

def looseSigns : List TokenKind :=
  [.lParen, .rParen, .lBrace, .rBrace, .lBrack, .rBrack, .comma, .semicolon, .fatArrow]

theorem stands_loose {kind : TokenKind} (h : kind ∈ looseSigns) (y : List Char) :
    (sign kind).Stands y := by
  simp only [looseSigns, List.mem_cons, List.not_mem_nil, or_false] at h
  rcases h with rfl | rfl | rfl | rfl | rfl | rfl | rfl | rfl | rfl
  · exact stands_mark (c := '(') (x := []) rfl (by simp [marks])
  · exact stands_mark (c := ')') (x := []) rfl (by simp [marks])
  · exact stands_mark (c := '{') (x := []) rfl (by simp [marks])
  · exact stands_mark (c := '}') (x := []) rfl (by simp [marks])
  · exact stands_mark (c := '[') (x := []) rfl (by simp [marks])
  · exact stands_mark (c := ']') (x := []) rfl (by simp [marks])
  · exact stands_mark (c := ',') (x := []) rfl (by simp [marks])
  · exact stands_mark (c := ';') (x := []) rfl (by simp [marks])
  · exact stands_mark (c := '=') (x := ['>']) rfl (by simp [marks])

def tightSigns : List TokenKind := [.dot, .eq, .lAngle, .rAngle]

def endsMark (c : Char) : Bool := !List.contains ['.', '=', '<', '>'] c

theorem stands_tight {kind : TokenKind} (h : kind ∈ tightSigns) {y : List Char}
    (hy : y.head?.any endsMark = true) : (sign kind).Stands y := by
  obtain ⟨c, y, rfl, hc⟩ := exists_of_head hy
  rw [endsMark, Bool.not_eq_true'] at hc
  have hne : c ≠ '.' ∧ c ≠ '=' ∧ c ≠ '<' ∧ c ≠ '>' := by simpa using hc
  obtain ⟨hdot, heq, hleft, hright⟩ := hne
  simp only [tightSigns, List.mem_cons, List.not_mem_nil, or_false] at h
  rcases h with rfl | rfl | rfl | rfl
  · exact stands_mark (c := '.') (x := []) rfl (by simp [marks, hdot.symm])
  · exact stands_mark (c := '=') (x := []) rfl (by simp [marks, heq.symm, hright.symm])
  · exact stands_mark (c := '<') (x := []) rfl (by simp [marks, heq.symm, hleft.symm])
  · exact stands_mark (c := '>') (x := []) rfl (by simp [marks, heq.symm])

def endsWord (c : Char) : Bool := !isWordChar c && !isQuote c

theorem toNat_of_isAlpha {c : Char} (h : c.isAlpha = true) :
    65 ≤ c.toNat ∧ c.toNat ≤ 90 ∨ 97 ≤ c.toNat ∧ c.toNat ≤ 122 := by
  rcases Bool.or_eq_true_iff.1 (show (c.isUpper || c.isLower) = true from h) with h | h
  · exact .inl (of_decide_eq_true h)
  · obtain ⟨hlow, hhigh⟩ := Bool.and_eq_true_iff.1 h
    exact .inr ⟨of_decide_eq_true hlow, of_decide_eq_true hhigh⟩

theorem isDigit_of_isWordStart {c : Char} (h : isWordStart c = true) : c.isDigit = false := by
  rw [isWordStart, Bool.or_eq_true, Bool.or_eq_true, beq_iff_eq, beq_iff_eq] at h
  rcases h with (h | rfl) | rfl
  · have hletter := toNat_of_isAlpha h
    have hdigit : ¬ (48 ≤ c.toNat ∧ c.toNat ≤ 57) := by omega
    simpa [Char.isDigit, UInt32.le_iff_toNat_le] using hdigit
  · rfl
  · rfl

theorem not_mem_of_all {p : Char → Bool} {c : Char} {ds : List Char} (h : p c = true)
    (hds : ds.all (!p ·) = true) : c ∉ ds := by
  intro hc
  have hall := List.all_eq_true.1 hds c hc
  simp [h] at hall

theorem opens_of_isWordStart {c : Char} (h : isWordStart c = true) :
    isBlank c = false ∧ isQuote c = false ∧ c.isDigit = false := by
  have hother : c ∉ [' ', '\t', '\r', '\n', '\x0c', '\'', '"'] := not_mem_of_all h (by decide)
  simp only [List.mem_cons, not_or] at hother
  refine ⟨?_, ?_, isDigit_of_isWordStart h⟩
  · simp [isBlank, hother]
  · simp [isQuote, hother]

theorem endsMark_of_isWordStart {c : Char} (h : isWordStart c = true) : endsMark c = true := by
  have hother : c ∉ ['.', '=', '<', '>'] := not_mem_of_all h (by decide)
  simpa [endsMark] using hother

theorem runLength_run {p : Char → Bool} {x : List Char} {d : Char} (h : ∀ a ∈ x, p a = true)
    (hd : p d = false) (y : List Char) : runLength p (x ++ d :: y) = x.length := by
  rw [runLength_append_of_head (by simpa using hd), runLength_of_all h]

theorem isQuote_of_isWordChar {c : Char} (h : isWordChar c = true) : isQuote c = false := by
  have hother : c ∉ ['\'', '"'] := not_mem_of_all h (by decide)
  simp only [List.mem_cons, not_or] at hother
  simp [isQuote, hother]

theorem stands_letters {kind : TokenKind} {text : String} {c : Char} {x y : List Char}
    (htext : text.toList = c :: x) (hkind : TokenKind.ofWord text = kind)
    (hc : isWordStart c = true) (hx : ∀ a ∈ x, isWordChar a = true)
    (hy : y.head?.any endsWord = true) : Stands ⟨kind, text⟩ y := by
  obtain ⟨d, y, rfl, hd⟩ := exists_of_head hy
  obtain ⟨hword, hquote⟩ : isWordChar d = false ∧ isQuote d = false := by
    simpa [endsWord] using hd
  obtain ⟨hblank, hstart, hdigit⟩ := opens_of_isWordStart hc
  -- The letter `r` right before a quote would open a raw string.
  have hraw : ∀ q rest, c = 'r' → x ++ d :: y = q :: rest → isQuote q = false := by
    intro q rest _ hsplit
    cases x with
    | nil =>
      obtain ⟨rfl, -⟩ := List.cons.inj hsplit
      exact hquote
    | cons a x =>
      obtain ⟨rfl, -⟩ := List.cons.inj hsplit
      exact isQuote_of_isWordChar (hx a (by simp))
  refine stands_of_reach htext ?_
  rw [reach_word hblank hstart hdigit hc hraw, wordReach, runLength_run hx hword,
    List.take_left, ← htext, String.ofList_toList, hkind]

theorem stands_keyword {kind : TokenKind} {y : List Char}
    (h : ∃ e ∈ TokenKind.keywords, e.2 = kind) (hy : y.head?.any endsWord = true) :
    (keyword kind).Stands y := by
  have hall : ∀ e ∈ TokenKind.keywords, isWordStart (e.1.toList.headD ' ') = true ∧
      e.1.toList.tail.all isWordChar = true ∧ keyword e.2 = ⟨e.2, e.1⟩ ∧
      TokenKind.ofWord e.1 = e.2 ∧ e.1.toList ≠ [] := by decide
  obtain ⟨e, he, rfl⟩ := h
  obtain ⟨hc, hx, hkeyword, hkind, hne⟩ := hall e he
  obtain ⟨c, x, htext⟩ := List.exists_cons_of_ne_nil hne
  rw [htext] at hc hx
  rw [hkeyword]
  exact stands_letters htext hkind hc (by simpa using hx) hy

end Token

namespace Word

open Token

theorem letters (w : Word) :
    ∃ c x, w.1.toList = c :: x ∧ isWordStart c = true ∧ ∀ a ∈ x, isWordChar a = true := by
  obtain ⟨text, hword⟩ := w
  obtain ⟨hletters, -⟩ := Bool.and_eq_true_iff.1 hword
  split at hletters
  · next c x htext =>
    obtain ⟨hc, hx⟩ := Bool.and_eq_true_iff.1 hletters
    exact ⟨c, x, htext, hc, List.all_eq_true.1 hx⟩
  · cases hletters

theorem head_any (w : Word) {p : Char → Bool} (hp : ∀ c, isWordStart c = true → p c = true)
    (ts : List Token) (y : List Char) : (chars (w.token :: ts) ++ y).head?.any p = true := by
  obtain ⟨c, x, htext, hc, -⟩ := w.letters
  simp [htext, hp c hc]

theorem head_nonblank (w : Word) (ts : List Token) (y : List Char) :
    (chars (w.token :: ts) ++ y).head?.any (!isBlank ·) = true :=
  w.head_any (fun _ hc => by simp [opens_of_isWordStart hc]) ts y

theorem head_endsMark (w : Word) (ts : List Token) (y : List Char) :
    (chars (w.token :: ts) ++ y).head?.any endsMark = true :=
  w.head_any (fun _ => endsMark_of_isWordStart) ts y

theorem kind_eq (w : Word) : TokenKind.ofWord w.1 = .ident := by
  obtain ⟨text, hword⟩ := w
  exact beq_iff_eq.1 (Bool.and_eq_true_iff.1 hword).2

theorem ne_this (w : Word) : w.1 ≠ "this" := by
  intro hthis
  have hword := w.kind_eq
  rw [hthis] at hword
  cases hword

theorem stands (w : Word) {y : List Char} (hy : y.head?.any endsWord = true) :
    w.token.Stands y := by
  obtain ⟨c, x, htext, hc, hx⟩ := w.letters
  exact stands_letters htext w.kind_eq hc hx hy

end Word

namespace Digits

open Token

def ends (c : Char) : Bool := [',', ')', ']', ';'].contains c

theorem opens_of_isDigit {c : Char} (h : c.isDigit = true) :
    isBlank c = false ∧ isQuote c = false ∧ c ≠ 'x' ∧ c ≠ 'X' := by
  have hother : c ∉ [' ', '\t', '\r', '\n', '\x0c', '\'', '"', 'x', 'X'] :=
    not_mem_of_all h (by decide)
  simp only [List.mem_cons, not_or] at hother
  simp [isBlank, isQuote, hother]

theorem hexLength_decimal {c d : Char} {x : List Char} (hx : ∀ a ∈ x, a.isDigit = true)
    (hd : d ≠ 'x' ∧ d ≠ 'X') (y : List Char) : hexLength c (x ++ d :: y) = 0 := by
  cases x with
  | nil => simp [hexLength, hd]
  | cons a x =>
    obtain ⟨-, -, ha⟩ := opens_of_isDigit (hx a (by simp))
    simp [hexLength, ha]

theorem digits (n : Digits) :
    ∃ c x, n.1.toList = c :: x ∧ c.isDigit = true ∧ ∀ a ∈ x, a.isDigit = true := by
  obtain ⟨text, hdigits⟩ := n
  obtain ⟨hne, hall⟩ := Bool.and_eq_true_iff.1 hdigits
  cases htext : text.toList with
  | nil => simp [htext] at hne
  | cons c x =>
    rw [htext] at hall
    obtain ⟨hc, hx⟩ := List.forall_mem_cons.1 (List.all_eq_true.1 hall)
    exact ⟨c, x, rfl, hc, hx⟩

theorem stands (n : Digits) {y : List Char} (hy : y.head?.any ends = true) :
    n.token.Stands y := by
  obtain ⟨d, y, rfl, hd⟩ := exists_of_head hy
  obtain ⟨c, x, htext, hc, hx⟩ := n.digits
  obtain ⟨hblank, hquote, -⟩ := opens_of_isDigit hc
  have hend : d.isDigit = false ∧ (d ≠ 'x' ∧ d ≠ 'X') ∧ tailReach (d :: y) = (.intNumber, 0) := by
    have hcases : d = ',' ∨ d = ')' ∨ d = ']' ∨ d = ';' := by simpa [ends] using hd
    rcases hcases with rfl | rfl | rfl | rfl <;> exact ⟨rfl, by decide, rfl⟩
  obtain ⟨hdigit, hmark, htail⟩ := hend
  refine stands_of_reach htext ?_
  rw [reach_number hblank hquote hc, numberReach_eq, hexLength_decimal hx hmark,
    runLength_run hx hdigit, List.drop_left, htail]
  rfl

end Digits

namespace Blanks

open Token

theorem blanks (b : Blanks) : ∃ c x, b.1.toList = c :: x ∧ (c :: x).all isBlank = true := by
  obtain ⟨text, hblanks⟩ := b
  obtain ⟨hne, hall⟩ := Bool.and_eq_true_iff.1 hblanks
  cases htext : text.toList with
  | nil => simp [htext] at hne
  | cons c x => exact ⟨c, x, rfl, htext ▸ hall⟩

theorem stands (b : Blanks) {y : List Char} (hy : y.head?.any (!isBlank ·) = true) :
    b.token.Stands y := by
  obtain ⟨c, x, htext, hall⟩ := b.blanks
  exact stands_blank htext hall hy

end Blanks

namespace Quoted

open Token

theorem plain (q : Quoted) : ∀ c ∈ q.1.toList, c ≠ '\'' ∧ c ≠ '\\' ∧ c ≠ '$' ∧ c ≠ '\n' := by
  obtain ⟨text, hplain⟩ := q
  intro c hc
  have hc := List.all_eq_true.1 hplain c hc
  simpa using hc

end Quoted

end CrossReference.Source
